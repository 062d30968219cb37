import Amarian.Lib.Json
import Amarian.Lib.Wp
import Amarian.Wallet.Wallet

/-
  The file of a wallet: what is kept in it, and when it is
  written.

  Every file can be opened and written; what can go wrong is
  that the JSON library throws.

  Key definitions include:
    * `Wallet.document`
    * `Wallet.save`
    * `Wallet.load`
    * `Wallet.OnDisk`

  Key theorems include:
    * `Wallet.updateDb_spec`
    * `Wallet.load_onDisk`
-/

------------------------------------------------------------
-- Encryption
------------------------------------------------------------

namespace Amarian

namespace Wallet

/- The password's hash is laid over the data, repeatedly. -/
def simpleEncrypt
    (c : Crypto)
    (data password : ByteVec) : ByteVec :=
  data.mapIdx fun place byte =>
    byte ^^^ (c.sha256 password).bytes.getD (place % 32) 0

def simpleDecrypt
    (c : Crypto)
    (data password : ByteVec) : ByteVec :=
  simpleEncrypt c data password

/- The seed as it is kept, if one is. -/
def WalletDb.storedSeed
    (db : WalletDb) : Option ByteVec :=
  if db.hasSeed then some db.encryptedSeed else none

def loadSeed
    (c : Crypto)
    (db : WalletDb)
    (password : ByteVec) : Option ByteVec :=
  if db.hasSeed then
    some (simpleDecrypt c db.encryptedSeed password)
  else
    none

------------------------------------------------------------
-- The Document
------------------------------------------------------------

def accountJson
    (account : Account) : JsonValue :=
  .object
    [(asciiBytes "gap", .number account.gapLimit),
      (asciiBytes "highest",
        .number account.highestDerived.toUInt64),
      (asciiBytes "id", .number account.accountId.toUInt64),
      (asciiBytes "label", .string account.label),
      (asciiBytes "scheme", .string account.schemeName)]

def metadataField
    (entry : ByteVec × ByteVec) : ByteVec × JsonValue :=
  (entry.1, .string entry.2)

/- The transactions are not written. -/
def document
    (db : WalletDb) : JsonValue :=
  .object
    [(asciiBytes "accounts",
        .array (db.accounts.map accountJson)),
      (asciiBytes "birth_height",
        .number db.birthHeight.toUInt64),
      (asciiBytes "metadata",
        .object (db.metadata.map metadataField)),
      (asciiBytes "seed",
        .string (asciiBytes (toHex db.encryptedSeed))),
      (asciiBytes "version", .number 1)]

/- `FromHex` of a text that is bytes. -/
def fromHexBytes
    (text : ByteVec) : Option ByteVec :=
  bytesOfHex (text.map fun byte => Char.ofNat byte.toNat)

def readAccountJson
    (item : JsonValue) : Except JsonValue.Error Account := do
  let label ←
    item.value JsonValue.getString (asciiBytes "label") []
  let schemeName ←
    item.value JsonValue.getString (asciiBytes "scheme") []
  let accountId ←
    item.value JsonValue.getU32 (asciiBytes "id") 0
  let highestDerived ←
    item.value JsonValue.getU32 (asciiBytes "highest") 0
  let gapLimit ←
    item.value JsonValue.getU64 (asciiBytes "gap") 20
  pure
    { label, schemeName, accountId, highestDerived,
      gapLimit }

def readAccounts
    (root : JsonValue) :
    Except JsonValue.Error (List Account) :=
  match root.field (asciiBytes "accounts") with
  | some (.array items) => items.mapM readAccountJson
  | _ => pure []

def readMetadataField
    (field : ByteVec × JsonValue) :
    Except JsonValue.Error (ByteVec × ByteVec) := do
  let text ← field.2.getString
  pure (field.1, text)

def readMetadata
    (root : JsonValue) :
    Except JsonValue.Error (List (ByteVec × ByteVec)) :=
  match root.field (asciiBytes "metadata") with
  | some (.object fields) => fields.mapM readMetadataField
  | _ => pure []

/- What is not a wallet's document leaves it without a seed. -/
def readDocument
    (db : WalletDb)
    (root : JsonValue) : Except JsonValue.Error WalletDb := do
  let version ←
    root.value JsonValue.getInt32 (asciiBytes "version") 0
  if version ≠ 1 then
    pure db
  else
    let text ←
      root.value JsonValue.getString (asciiBytes "seed") []
    match fromHexBytes text with
    | none => pure db
    | some seed =>
        if seed.isEmpty then
          pure db
        else
          let birthHeight ←
            root.value JsonValue.getU32
              (asciiBytes "birth_height") 0
          let accounts ← readAccounts root
          let metadata ← readMetadata root
          pure
            { db with
              encryptedSeed := seed
              hasSeed := true
              birthHeight
              accounts := db.accounts ++ accounts
              metadata }

------------------------------------------------------------
-- The File
------------------------------------------------------------

/- What is in the file of each path. -/
abbrev Disk (Text : Type) : Type :=
  ByteVec → Option Text

section Files

variable {Text : Type} (json : JsonLibrary Text)

def load
    (db : WalletDb)
    (disk : Disk Text) : Except JsonValue.Error WalletDb :=
  if db.path.isEmpty then
    pure db
  else
    match (disk db.path).bind json.parse with
    | none => pure db
    | some root => readDocument db root

/- A wallet and the files around it. -/
structure Session (Text : Type) where
  disk : Disk Text
  wallet : Wallet

abbrev Storing (Text : Type) : Type → Type :=
  ExceptT JsonValue.Error (StateM (Session Text))

def Session.write
    (session : Session Text)
    (text : Text) : Session Text :=
  { session with
    disk :=
      Function.update session.disk session.wallet.db.path
        (some text) }

/- The file is cut to nothing before anything is written. -/
def save : Storing Text Unit := do
  let session ← get
  if session.wallet.db.path.isEmpty then
    pure ()
  else
    match json.dump (document session.wallet.db) with
    | none => do
        set (session.write json.empty)
        throw .invalidUtf8
    | some text => set (session.write text)

/- Every change of the database is written at once. -/
def updateDb
    (change : WalletDb → WalletDb) : Storing Text Unit := do
  modify fun session =>
    { session with
      wallet :=
        { session.wallet with
          db := change session.wallet.db } }
  save json

def storeSeed
    (c : Crypto)
    (seed password : ByteVec) : Storing Text Unit :=
  updateDb json fun db =>
    { db with
      encryptedSeed := simpleEncrypt c seed password
      hasSeed := true }

def setBirthHeight
    (height : UInt32) : Storing Text Unit :=
  updateDb json fun db => { db with birthHeight := height }

def maxAccounts : Nat := 64

def addAccount
    (account : Account) : Storing Text Unit := do
  let session ← get
  if session.wallet.db.accounts.length ≥ maxAccounts then
    pure ()
  else
    updateDb json fun db =>
      { db with accounts := db.accounts ++ [account] }

end Files

------------------------------------------------------------
-- What Is Written
------------------------------------------------------------

/- The texts of a database that can be any bytes. -/
def WalletDb.texts
    (db : WalletDb) : List ByteVec :=
  db.accounts.flatMap (fun account =>
      [account.label, account.schemeName]) ++
    db.metadata.flatMap fun entry => [entry.1, entry.2]

variable {Text : Type} {json : JsonLibrary Text}

/- What is in memory only can be anything. -/
def Writable
    (json : JsonLibrary Text)
    (db : WalletDb) : Prop :=
  db.path ≠ [] →
    ∀ text ∈ db.texts, json.isUtf8 text = true

/- The database is the one in its file, if it has a file. -/
def OnDisk
    (json : JsonLibrary Text)
    (disk : Disk Text)
    (db : WalletDb) : Prop :=
  db.path ≠ [] →
    ∃ text,
      json.dump (document db) = some text ∧
        disk db.path = some text

theorem toHex_ascii
    (bytes : ByteVec) :
    ∀ byte ∈ asciiBytes (toHex bytes), byte < 128 := by
  have hDigit : ∀ value < 16,
      UInt8.ofNat (hexDigit value).toNat < 128 := by
    decide
  intro byte hByte
  rw [asciiBytes, toHex, String.toList_ofList] at hByte
  rcases List.mem_map.mp hByte with ⟨char, hChar, rfl⟩
  rcases List.mem_flatMap.mp hChar with ⟨source, -, hPair⟩
  have hSource := source.toNat_lt
  rw [hexPair, List.mem_cons, List.mem_singleton] at hPair
  rcases hPair with rfl | rfl
  · exact hDigit _ (by omega)
  · exact hDigit _ (Nat.mod_lt _ (by decide))

theorem metadata_strings
    (metadata : List (ByteVec × ByteVec)) :
    JsonValue.fieldStrings (metadata.map metadataField) =
      metadata.flatMap fun entry => [entry.1, entry.2] := by
  induction metadata with
  | nil => rfl
  | cons entry metadata ih =>
      rw [List.map_cons, metadataField, JsonValue.fieldStrings,
        ih, List.flatMap_cons]
      rfl

/- The rest of a document is ASCII. -/
theorem document_strings
    (db : WalletDb) :
    (∀ text ∈ (document db).strings,
        json.isUtf8 text = true) ↔
      ∀ text ∈ db.texts, json.isUtf8 text = true := by
  have hKey : ∀ key ∈
      ["accounts", "birth_height", "metadata", "seed",
        "version", "gap", "highest", "id", "label",
        "scheme"],
      json.isUtf8 (asciiBytes key) = true := by
    intro key hKey
    refine json.isUtf8_of_ascii _ ?_
    revert key
    decide +kernel
  have hSeed := json.isUtf8_of_ascii _
    (toHex_ascii db.encryptedSeed)
  have hAccount : ∀ account : Account,
      (accountJson account).strings =
        [asciiBytes "gap", asciiBytes "highest",
          asciiBytes "id", asciiBytes "label",
          account.label, asciiBytes "scheme",
          account.schemeName] := by
    intro account
    rfl
  simp only [List.forall_mem_cons] at hKey
  simp only [document, JsonValue.strings,
    JsonValue.fieldStrings, JsonValue.itemStrings_map,
    hAccount, metadata_strings,
    WalletDb.texts, List.forall_mem_cons,
    List.forall_mem_append, List.forall_mem_flatMap,
    List.not_mem_nil, false_imp_iff, implies_true, and_true,
    hKey, hSeed, true_and]

theorem save_spec
    (session : Session Text) :
    wpE (save json)
      (fun outcome after =>
        (outcome = .ok () ∧
            Writable json session.wallet.db ∧
            after.wallet = session.wallet ∧
            OnDisk json after.disk session.wallet.db) ∨
          (outcome = .error .invalidUtf8 ∧
            ¬Writable json session.wallet.db))
      session := by
  unfold save
  rw [wpE_get_bind]
  split
  case isTrue hPath =>
    rw [List.isEmpty_iff] at hPath
    exact .inl ⟨rfl, fun hSome => absurd hPath hSome, rfl,
      fun hSome => absurd hPath hSome⟩
  case isFalse hPath =>
    rw [List.isEmpty_iff] at hPath
    split
    case h_1 hNone =>
      refine .inr ⟨rfl, fun hWritable => ?_⟩
      have hTexts := hWritable hPath
      rw [← document_strings] at hTexts
      rcases json.exists_dump hTexts with ⟨text, hText⟩
      rw [hNone] at hText
      cases hText
    case h_2 text hText =>
      refine .inl ⟨rfl, fun _ => ?_, rfl, fun _ => ?_⟩
      · rw [← document_strings]
        exact json.strings_of_dump hText
      · exact ⟨text, hText, Function.update_self ..⟩

/- A change is made in memory, and then it is written. -/
theorem updateDb_spec
    (change : WalletDb → WalletDb)
    (session : Session Text) :
    wpE (updateDb json change)
      (fun outcome after =>
        (outcome = .ok () ∧
            Writable json (change session.wallet.db) ∧
            after.wallet =
              { session.wallet with
                db := change session.wallet.db } ∧
            OnDisk json after.disk
              (change session.wallet.db)) ∨
          (outcome = .error .invalidUtf8 ∧
            ¬Writable json (change session.wallet.db)))
      session := by
  unfold updateDb
  rw [wpE_bind]
  exact save_spec _

theorem updateDb_ok
    {change : WalletDb → WalletDb}
    {session : Session Text}
    (hWritable : Writable json (change session.wallet.db)) :
    wpE (updateDb json change)
      (fun outcome after =>
        outcome = .ok () ∧
          after.wallet =
            { session.wallet with
              db := change session.wallet.db } ∧
          OnDisk json after.disk
            (change session.wallet.db))
      session := by
  refine wpE_mono (updateDb_spec change session) ?_
  rintro outcome after
    (⟨hDone, -, hWallet, hDisk⟩ | ⟨-, hNot⟩)
  · exact ⟨hDone, hWallet, hDisk⟩
  · exact absurd hWritable hNot

------------------------------------------------------------
-- What Is Read Back
------------------------------------------------------------

theorem fromHexBytes_toHex
    (bytes : ByteVec) :
    fromHexBytes (asciiBytes (toHex bytes)) =
      some bytes := by
  have hDigit : ∀ value < 16,
      Char.ofNat
          (UInt8.ofNat (hexDigit value).toNat).toNat =
        hexDigit value := by
    decide
  have hChars : ∀ char ∈ bytes.flatMap hexPair,
      Char.ofNat (UInt8.ofNat char.toNat).toNat =
        char := by
    intro char hChar
    rcases List.mem_flatMap.mp hChar with ⟨byte, -, hPair⟩
    have hByte := byte.toNat_lt
    rw [hexPair, List.mem_cons, List.mem_singleton] at hPair
    rcases hPair with rfl | rfl
    · exact hDigit _ (by omega)
    · exact hDigit _ (Nat.mod_lt _ (by decide))
  rw [fromHexBytes, asciiBytes, toHex, String.toList_ofList,
    List.map_map]
  have hSame :
      (bytes.flatMap hexPair).map
          ((fun byte : UInt8 => Char.ofNat byte.toNat) ∘
            fun char => UInt8.ofNat char.toNat) =
        bytes.flatMap hexPair := by
    refine (List.map_congr_left hChars).trans ?_
    exact List.map_id' _
  rw [hSame]
  exact bytesOfHex_hexPair bytes

theorem readAccountJson_accountJson
    (account : Account) :
    readAccountJson (accountJson account) =
      .ok account := by
  have hHighest :
      account.highestDerived.toUInt64.toUInt32 =
        account.highestDerived :=
    UInt32.toUInt32_toUInt64 _
  have hId :
      account.accountId.toUInt64.toUInt32 =
        account.accountId :=
    UInt32.toUInt32_toUInt64 _
  unfold readAccountJson accountJson
  rw [JsonValue.value_object (.string account.label) rfl,
    JsonValue.value_object (.string account.schemeName) rfl,
    JsonValue.value_object
      (.number account.accountId.toUInt64) rfl,
    JsonValue.value_object
      (.number account.highestDerived.toUInt64) rfl,
    JsonValue.value_object (.number account.gapLimit) rfl]
  simp only [JsonValue.getString, JsonValue.getU32,
    JsonValue.getU64, hHighest, hId]
  rfl

theorem mapM_map_ok
    {α β ε : Type}
    {write : α → β}
    {read : β → Except ε α}
    (hBack : ∀ item, read (write item) = .ok item)
    (items : List α) :
    (items.map write).mapM read = .ok items := by
  induction items with
  | nil => rfl
  | cons item items ih =>
      rw [List.map_cons, List.mapM_cons, hBack, ih]
      rfl

/- A document is read back as the database it is of. -/
theorem readDocument_document
    {db fresh : WalletDb}
    (hSeed : db.encryptedSeed ≠ []) :
    readDocument fresh (document db) =
      .ok
        { fresh with
          encryptedSeed := db.encryptedSeed
          hasSeed := true
          birthHeight := db.birthHeight
          accounts := fresh.accounts ++ db.accounts
          metadata := db.metadata } := by
  have hAccounts :
      readAccounts (document db) = .ok db.accounts :=
    mapM_map_ok readAccountJson_accountJson db.accounts
  have hEntry : ∀ entry : ByteVec × ByteVec,
      readMetadataField (metadataField entry) =
        .ok entry :=
    fun _ => rfl
  have hMetadata :
      readMetadata (document db) = .ok db.metadata :=
    mapM_map_ok hEntry db.metadata
  have hHeight :
      db.birthHeight.toUInt64.toUInt32 = db.birthHeight :=
    UInt32.toUInt32_toUInt64 _
  have hSome : ¬db.encryptedSeed.isEmpty = true := by
    rw [List.isEmpty_iff]
    exact hSeed
  unfold readDocument
  rw [hAccounts, hMetadata, document,
    JsonValue.value_object (.number 1) rfl,
    JsonValue.value_object
      (.string (asciiBytes (toHex db.encryptedSeed))) rfl,
    JsonValue.value_object
      (.number db.birthHeight.toUInt64) rfl]
  have hVersion :
      JsonValue.getInt32 (.number 1) = .ok 1 := by
    rfl
  have hText := fromHexBytes_toHex db.encryptedSeed
  rw [hVersion, JsonValue.getString, JsonValue.getU32, hHeight]
  simp only [bind, Except.bind, ne_eq, not_true_eq_false,
    if_false, hText, if_neg hSome]
  rfl

/- Opening a path reads what was last saved there. -/
theorem load_onDisk
    {db : WalletDb}
    {disk : Disk Text}
    (fresh : WalletDb)
    (hPath : db.path ≠ [])
    (hFresh : fresh.path = db.path)
    (hSeed : db.encryptedSeed ≠ [])
    (hDisk : OnDisk json disk db) :
    load json fresh disk =
      .ok
        { fresh with
          encryptedSeed := db.encryptedSeed
          hasSeed := true
          birthHeight := db.birthHeight
          accounts := fresh.accounts ++ db.accounts
          metadata := db.metadata } := by
  rcases hDisk hPath with ⟨text, hDump, hFile⟩
  have hSome : ¬fresh.path.isEmpty = true := by
    rw [hFresh, List.isEmpty_iff]
    exact hPath
  rw [← hFresh] at hFile
  rw [load, if_neg hSome, hFile, Option.bind_some,
    json.parse_dump _ _ hDump]
  dsimp only
  exact readDocument_document hSeed

end Wallet

end Amarian
