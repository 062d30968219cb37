import Amarian.Crypto.Sha256
import Amarian.Wallet.Store
import Mathlib.Data.List.GetD

/-
  Making a wallet at a path, and opening the one that is
  there.

  Opening makes a wallet first, so that there always is one;
  and a seed decrypts under any password to some seed.

  Key definitions include:
    * `Wallet.construct`
    * `Wallet.openWallet`
    * `Wallet.InFile`
    * `Wallet.OpensOwn`

  Key theorems include:
    * `Wallet.simpleDecrypt_eq_iff`
    * `Wallet.openWallet_filed`
    * `Wallet.openWallet_own_iff`
-/

------------------------------------------------------------
-- Opening
------------------------------------------------------------

namespace Amarian

namespace Wallet

section Model

variable {Text : Type} (json : JsonLibrary Text) (c : Crypto)

def WalletDb.atPath
    (path : ByteVec) : WalletDb :=
  { accounts := [], txs := fun _ => none, path }

def everydayAccount : Account :=
  { label := asciiBytes "Everyday Spending"
    schemeName := asciiBytes defaultScheme
    accountId := defaultAccount
    highestDerived := 0
    gapLimit := 20 }

def holding
    (params : ChainParams)
    (seed : MasterSeed)
    (db : WalletDb) : Wallet :=
  { seed
    db
    params
    balance := { confirmed := 0, pending := 0 }
    utxos := []
    tipHeight := 0 }

/- The seed is kept before anything else is. -/
def startNew
    (fresh : MasterSeed)
    (password : ByteVec) : Storing Text Unit := do
  storeSeed json c fresh.bytes password
  setBirthHeight json 0
  addAccount json everydayAccount

variable (fresh : MasterSeed) (params : ChainParams)

/-
  The constructor: whatever the path holds is loaded, and
  where that has no seed of the right size, the fresh one is
  stored over it.
-/
def construct
    (path password : ByteVec)
    (disk : Disk Text) :
    Except JsonValue.Error Wallet × Disk Text :=
  match load json (.atPath path) disk with
  | .error error => (.error error, disk)
  | .ok db =>
      match (loadSeed c db password).bind
          hash256FromBytes with
      | some seed => (.ok (holding params seed db), disk)
      | none =>
          let made :=
            (startNew json c fresh password).run
              { disk, wallet := holding params fresh db }
          (made.1.map fun _ => made.2.wallet, made.2.disk)

/- `Open`; the constructor does all of the work. -/
def openWallet
    (path password : ByteVec)
    (disk : Disk Text) :
    Except JsonValue.Error (Option Wallet) × Disk Text :=
  match construct json c fresh params path password disk with
  | (.error error, disk) => (.error error, disk)
  | (.ok wallet, disk) =>
      match (loadSeed c wallet.db password).bind
          hash256FromBytes with
      | none => (.ok none, disk)
      | some seed => (.ok (some { wallet with seed }), disk)

end Model

------------------------------------------------------------
-- Passwords
------------------------------------------------------------

section Passwords

variable {c : Crypto} {data : ByteVec}
variable {password other : ByteVec}

theorem length_simpleEncrypt :
    (simpleEncrypt c data password).length = data.length :=
  List.length_mapIdx

theorem getElem?_twice
    (data password other : ByteVec)
    (place : Nat) :
    (simpleDecrypt c (simpleEncrypt c data password)
        other)[place]? =
      data[place]?.map fun byte =>
        byte ^^^
            (c.sha256 password).bytes.getD (place % 32) 0 ^^^
          (c.sha256 other).bytes.getD (place % 32) 0 := by
  rw [simpleDecrypt, simpleEncrypt, simpleEncrypt,
    List.getElem?_mapIdx, List.getElem?_mapIdx,
    Option.map_map]
  rfl

/- The same key takes off what it put on. -/
theorem simpleDecrypt_simpleEncrypt
    (hHash : c.sha256 password = c.sha256 other) :
    simpleDecrypt c (simpleEncrypt c data password) other =
      data := by
  refine List.ext_getElem? fun place => ?_
  rw [getElem?_twice, hHash]
  simp only [UInt8.xor_assoc, UInt8.xor_self,
    UInt8.xor_zero, Option.map_id']

/- A whole key's worth of data tells the keys apart. -/
theorem simpleDecrypt_eq_iff
    (hSize : data.length = 32) :
    simpleDecrypt c (simpleEncrypt c data password) other =
        data ↔
      c.sha256 password = c.sha256 other := by
  refine ⟨fun hBack => ?_, simpleDecrypt_simpleEncrypt⟩
  refine Bytes32.ext (List.ext_getElem ?_ ?_)
  · rw [Bytes32.size_eq, Bytes32.size_eq]
  · intro place hLeft hRight
    have hPlace : place < data.length := by
      rw [hSize, ← (c.sha256 password).size_eq]
      exact hLeft
    have hByte := getElem?_twice (c := c) data password other
      place
    rw [hBack, List.getElem?_eq_getElem hPlace,
      Option.map_some, Option.some_inj,
      Nat.mod_eq_of_lt (by omega),
      List.getD_eq_getElem _ _ hLeft,
      List.getD_eq_getElem _ _ hRight, UInt8.xor_assoc]
      at hByte
    have hNone := (UInt8.xor_right_inj data[place]).mp
      (UInt8.xor_zero.trans hByte)
    exact UInt8.xor_eq_zero_iff.mp hNone.symm

end Passwords

------------------------------------------------------------
-- Wallets In Their Files
------------------------------------------------------------

variable {Text : Type} {json : JsonLibrary Text} {c : Crypto}

/- A wallet with a file, and a seed in it. -/
structure InFile
    (json : JsonLibrary Text)
    (disk : Disk Text)
    (db : WalletDb) : Prop where
  path : db.path ≠ []
  hasSeed : db.hasSeed = true
  size : db.encryptedSeed.length = 32
  onDisk : OnDisk json disk db

/- What a password makes of the seed that is kept. -/
def decrypted
    (c : Crypto)
    {db : WalletDb}
    (hSize : db.encryptedSeed.length = 32)
    (password : ByteVec) : MasterSeed :=
  ⟨simpleDecrypt c db.encryptedSeed password,
    length_simpleEncrypt.trans hSize⟩

theorem loadSeed_decrypted
    {db : WalletDb}
    (hSeed : db.hasSeed = true)
    (hSize : db.encryptedSeed.length = 32)
    (password : ByteVec) :
    (loadSeed c db password).bind hash256FromBytes =
      some (decrypted c hSize password) := by
  rw [loadSeed, if_pos hSeed, Option.bind_some]
  exact hash256FromBytes_bytes (decrypted c hSize password)

/- A file is opened under every password, and is not touched. -/
theorem openWallet_filed
    {disk : Disk Text}
    {db : WalletDb}
    (hFiled : InFile json disk db)
    (fresh : MasterSeed)
    (params : ChainParams)
    (password : ByteVec) :
    openWallet json c fresh params db.path password disk =
      (.ok
          (some
            (holding params
              (decrypted c hFiled.size password)
              { db with txs := fun _ => none })),
        disk) := by
  have hSome : db.encryptedSeed ≠ [] := by
    intro hNone
    have hSize := hFiled.size
    rw [hNone] at hSize
    cases hSize
  have hLoad :
      load json (.atPath db.path) disk =
        .ok { db with txs := fun _ => none } := by
    have hRead := load_onDisk (.atPath db.path) hFiled.path
      rfl hSome hFiled.onDisk
    rw [← hFiled.hasSeed] at hRead
    exact hRead
  have hSeed :
      (loadSeed c { db with txs := fun _ => none }
            password).bind hash256FromBytes =
        some (decrypted c hFiled.size password) :=
    loadSeed_decrypted hFiled.hasSeed hFiled.size password
  have hMade :
      construct json c fresh params db.path password disk =
        (.ok
            (holding params
              (decrypted c hFiled.size password)
              { db with txs := fun _ => none }),
          disk) := by
    rw [construct, hLoad]
    dsimp only
    rw [hSeed]
  rw [openWallet, hMade]
  dsimp only [holding]
  rw [hSeed]

------------------------------------------------------------
-- Wallets That Are New
------------------------------------------------------------

/- The database of a new wallet. -/
def firstDb
    (c : Crypto)
    (fresh : MasterSeed)
    (path password : ByteVec) : WalletDb :=
  { accounts := [everydayAccount]
    txs := fun _ => none
    path
    encryptedSeed := simpleEncrypt c fresh.bytes password
    hasSeed := true }

theorem everydayAccount_utf8 :
    ∀ text ∈
        [everydayAccount.label, everydayAccount.schemeName],
      json.isUtf8 text = true := by
  have hAscii : ∀ text ∈
      [everydayAccount.label, everydayAccount.schemeName],
      ∀ byte ∈ text, byte < 128 := by
    decide +kernel
  exact fun text hText =>
    json.isUtf8_of_ascii text (hAscii text hText)

/- Everything that a new wallet writes can be written. -/
theorem startNew_spec
    {fresh : MasterSeed}
    {path password : ByteVec}
    {session : Session Text}
    (hDb : session.wallet.db = .atPath path) :
    wpE (startNew json c fresh password)
      (fun outcome after =>
        outcome = .ok () ∧
          after.wallet =
            { session.wallet with
              db := firstDb c fresh path password } ∧
          OnDisk json after.disk
            (firstDb c fresh path password))
      session := by
  have hEmpty : ∀ db : WalletDb,
      db.accounts = [] → db.metadata = [] →
        Writable json db := by
    intro db hAccounts hMetadata _ text hText
    rw [WalletDb.texts, hAccounts, hMetadata] at hText
    cases hText
  unfold startNew storeSeed setBirthHeight
  rw [wpE_bind]
  refine wpE_mono (updateDb_ok ?_) ?_
  · rw [hDb]
    exact hEmpty _ rfl rfl
  rintro - seeded ⟨rfl, hSeeded, -⟩
  change wpE _ _ seeded
  rw [wpE_bind]
  refine wpE_mono (updateDb_ok ?_) ?_
  · rw [hSeeded, hDb]
    exact hEmpty _ rfl rfl
  rintro - born ⟨rfl, hBorn, -⟩
  change wpE (addAccount json everydayAccount) _ born
  unfold addAccount
  rw [wpE_get_bind]
  rw [hSeeded, hDb] at hBorn
  have hRoom :
      ¬born.wallet.db.accounts.length ≥ maxAccounts := by
    rw [hBorn]
    exact Nat.not_succ_le_zero 63
  rw [if_neg hRoom]
  refine wpE_mono (updateDb_ok ?_) ?_
  · rw [hBorn]
    intro _ text hText
    exact everydayAccount_utf8 text hText
  rintro - after ⟨rfl, hAfter, hDisk⟩
  rw [hBorn] at hAfter hDisk
  exact ⟨rfl, hAfter, hDisk⟩

theorem load_absent
    {disk : Disk Text}
    {path : ByteVec}
    (hNone : disk path = none) :
    load json (.atPath path) disk = .ok (.atPath path) := by
  have hFile : disk (WalletDb.atPath path).path = none :=
    hNone
  rw [load, hFile]
  split <;> rfl

theorem construct_absent
    {disk : Disk Text}
    {path : ByteVec}
    (hNone : disk path = none)
    (json : JsonLibrary Text)
    (c : Crypto)
    (fresh : MasterSeed)
    (params : ChainParams)
    (password : ByteVec) :
    ∃ after,
      construct json c fresh params path password disk =
          (.ok
              (holding params fresh
                (firstDb c fresh path password)),
            after) ∧
        OnDisk json after
          (firstDb c fresh path password) := by
  have hMade :
      wpE (startNew json c fresh password) _
        { disk
          wallet := holding params fresh (.atPath path) } :=
    startNew_spec rfl
  rcases hMade with ⟨hDone, hWallet, hDisk⟩
  refine ⟨_, ?_, hDisk⟩
  rw [construct, load_absent hNone]
  change (Except.map _ _, _) = _
  rw [hDone, Except.map, hWallet]
  rfl

/- A new wallet is in its file, with its own seed. -/
theorem construct_filed
    {disk : Disk Text}
    {path : ByteVec}
    (hPath : path ≠ [])
    (hNone : disk path = none)
    (json : JsonLibrary Text)
    (c : Crypto)
    (fresh : MasterSeed)
    (params : ChainParams)
    (password : ByteVec) :
    ∃ after,
      construct json c fresh params path password disk =
          (.ok
              (holding params fresh
                (firstDb c fresh path password)),
            after) ∧
        InFile json after (firstDb c fresh path password) := by
  rcases construct_absent hNone json c fresh params
    password with ⟨after, hMade, hDisk⟩
  refine ⟨after, hMade, ⟨hPath, rfl, ?_, hDisk⟩⟩
  exact length_simpleEncrypt.trans fresh.size_eq

/- Where there is no file, opening makes one. -/
theorem openWallet_absent
    {disk : Disk Text}
    {path : ByteVec}
    (hNone : disk path = none)
    (json : JsonLibrary Text)
    (c : Crypto)
    (fresh : MasterSeed)
    (params : ChainParams)
    (password : ByteVec) :
    ∃ after,
      openWallet json c fresh params path password disk =
        (.ok
            (some
              (holding params fresh
                (firstDb c fresh path password))),
          after) := by
  rcases construct_absent hNone json c fresh params
    password with ⟨after, hMade, -⟩
  have hSeed :
      loadSeed c (firstDb c fresh path password) password =
        some fresh.bytes := by
    exact congrArg some (simpleDecrypt_simpleEncrypt rfl)
  refine ⟨after, ?_⟩
  rw [openWallet, hMade]
  dsimp only [holding]
  rw [hSeed, Option.bind_some, hash256FromBytes_bytes]

------------------------------------------------------------
-- The Own Password
------------------------------------------------------------

/- The seed in the file is the wallet's, under a password. -/
def StoredUnder
    (c : Crypto)
    (wallet : Wallet)
    (password : ByteVec) : Prop :=
  wallet.db.encryptedSeed =
    simpleEncrypt c wallet.seed.bytes password

/-
  What is at a path: the file of a wallet, which has a
  password, or no file.
-/
inductive Origin
    (json : JsonLibrary Text)
    (disk : Disk Text)
    (path : ByteVec) : Option (Wallet × ByteVec) → Prop where
  | saved
      {wallet : Wallet}
      {own : ByteVec}
      (hPath : wallet.db.path = path)
      (hFiled : InFile json disk wallet.db) :
      Origin json disk path (some (wallet, own))
  | absent
      (hNone : disk path = none) :
      Origin json disk path none

/- What opening is said to do. -/
def OpensOwn
    (json : JsonLibrary Text)
    (c : Crypto)
    (fresh : MasterSeed)
    (params : ChainParams)
    (disk : Disk Text)
    (path password : ByteVec) :
    Option (Wallet × ByteVec) → Prop
  | some (wallet, own) =>
      (password = own →
          ∃ opened after,
            openWallet json c fresh params path password
                disk =
              (.ok (some opened), after) ∧
            opened.seed = wallet.seed ∧
            opened.db.accounts = wallet.db.accounts) ∧
        (c.sha256 password ≠ c.sha256 own →
          openWallet json c fresh params path password disk =
            (.ok none, disk))
  | none =>
      openWallet json c fresh params path password disk =
        (.ok none, disk)

/- The stored seed is decrypted to what it was made of. -/
theorem decrypted_eq_iff
    {wallet : Wallet}
    (hSize : wallet.db.encryptedSeed.length = 32)
    (password : ByteVec) :
    decrypted c hSize password = wallet.seed ↔
      StoredUnder c wallet password := by
  constructor
  · intro hSeed
    have hBytes :
        simpleDecrypt c wallet.db.encryptedSeed password =
          wallet.seed.bytes :=
      congrArg Bytes32.bytes hSeed
    rw [StoredUnder, ← hBytes]
    exact (simpleDecrypt_simpleEncrypt rfl).symm
  · intro hStored
    refine Bytes32.ext ?_
    rw [decrypted]
    dsimp only
    rw [hStored]
    exact simpleDecrypt_simpleEncrypt rfl

/- Another key makes another seed of it. -/
theorem decrypted_ne
    {wallet : Wallet}
    {own password : ByteVec}
    (hSize : wallet.db.encryptedSeed.length = 32)
    (hStored : StoredUnder c wallet own)
    (hHash : c.sha256 password ≠ c.sha256 own) :
    decrypted c hSize password ≠ wallet.seed := by
  intro hSeed
  have hBytes :
      simpleDecrypt c wallet.db.encryptedSeed password =
        wallet.seed.bytes :=
    congrArg Bytes32.bytes hSeed
  rw [hStored, simpleDecrypt_eq_iff wallet.seed.size_eq]
    at hBytes
  exact hHash hBytes.symm

/-
  Opening does as it is said to only where a file is there
  and the password is not a wrong one.
-/
theorem openWallet_own_iff
    {disk : Disk Text}
    {path : ByteVec}
    {origin : Option (Wallet × ByteVec)}
    (hOrigin : Origin json disk path origin)
    (fresh : MasterSeed)
    (params : ChainParams)
    (password : ByteVec) :
    OpensOwn json c fresh params disk path password origin ↔
      ∃ wallet own,
        origin = some (wallet, own) ∧
          c.sha256 password = c.sha256 own ∧
          (password = own → StoredUnder c wallet own) := by
  cases hOrigin with
  | absent hNone =>
      rcases openWallet_absent hNone json c fresh params
        password with ⟨after, hOpen⟩
      constructor
      · intro hOwn
        have hRefused :
            openWallet json c fresh params path password
                disk =
              (.ok none, disk) :=
          hOwn
        rw [hOpen] at hRefused
        cases hRefused
      · rintro ⟨wallet, own, hNot, -⟩
        cases hNot
  | @saved wallet own hPath hFiled =>
      cases hPath
      have hOpen := openWallet_filed (c := c) hFiled fresh
        params password
      constructor
      · rintro ⟨hSame, hOther⟩
        refine ⟨wallet, own, rfl, ?_, ?_⟩
        · by_contra hHash
          rw [hOther hHash] at hOpen
          cases hOpen
        · rintro rfl
          rcases hSame rfl with
            ⟨opened, after, hOpened, hSeed, -⟩
          rw [hOpen] at hOpened
          cases hOpened
          exact (decrypted_eq_iff hFiled.size _).mp hSeed
      · rintro ⟨wallet, own, hSame, hHash, hStored⟩
        cases hSame
        refine ⟨fun hPassword => ?_, fun hOther =>
          absurd hHash hOther⟩
        cases hPassword
        refine ⟨_, _, hOpen, ?_, rfl⟩
        exact (decrypted_eq_iff hFiled.size _).mpr
          (hStored rfl)

end Wallet

namespace Sample

open Wallet

/- Texts that are values; every string has to be ASCII. -/
def asciiJson : JsonLibrary (Option JsonValue) :=
  { isUtf8 := fun text => text.all (· < 128)
    dump := fun value =>
      if value.strings.all fun text =>
          text.all (· < 128) then
        some (some value)
      else
        none
    parse := id
    empty := none
    isUtf8_of_ascii := fun text hText =>
      List.all_eq_true.mpr fun byte hByte =>
        decide_eq_true (hText byte hByte)
    dump_isSome := fun value => by
      split
      case isTrue hAll => exact hAll.symm
      case isFalse hNot =>
        exact (Bool.eq_false_iff.mpr hNot).symm
    parse_dump := fun value text hDump => by
      split at hDump
      · cases hDump
        rfl
      · cases hDump }

def coldSeed : MasterSeed :=
  .ofList (List.replicate 32 0x11)

def coldPath : ByteVec :=
  asciiBytes "wallet.json"

def coldPassword : ByteVec :=
  asciiBytes "hunter2"

def wrongPassword : ByteVec :=
  asciiBytes "hunter3"

def coldDb : WalletDb :=
  firstDb .reference coldSeed coldPath coldPassword

def coldWallet : Wallet :=
  holding mainnetParams coldSeed coldDb

def emptyDisk : Disk (Option JsonValue) :=
  fun _ => none

def coldDisk : Disk (Option JsonValue) :=
  (construct asciiJson .reference coldSeed mainnetParams
    coldPath coldPassword emptyDisk).2

theorem coldDb_filed :
    InFile asciiJson coldDisk coldDb := by
  have hPath : coldPath ≠ [] := by
    decide
  have hNone : emptyDisk coldPath = none :=
    rfl
  rcases construct_filed hPath hNone asciiJson .reference
    coldSeed mainnetParams coldPassword with
    ⟨after, hMade, hFiled⟩
  rw [coldDisk, hMade]
  exact hFiled

theorem coldWallet_origin :
    Origin asciiJson coldDisk coldPath
      (some (coldWallet, coldPassword)) :=
  .saved rfl coldDb_filed

/- The right password opens the wallet. -/
theorem coldWallet_opens :
    OpensOwn asciiJson .reference coldSeed mainnetParams
      coldDisk coldPath coldPassword
      (some (coldWallet, coldPassword)) :=
  (openWallet_own_iff coldWallet_origin coldSeed
    mainnetParams coldPassword).mpr
    ⟨coldWallet, coldPassword, rfl, rfl, fun _ => rfl⟩

/- A mistyped one opens another, from the same file. -/
theorem wrongPassword_opens :
    Origin asciiJson coldDisk coldPath
        (some (coldWallet, coldPassword)) ∧
      StoredUnder .reference coldWallet coldPassword ∧
      Crypto.reference.sha256 wrongPassword ≠
        Crypto.reference.sha256 coldPassword ∧
      (∃ opened,
        openWallet asciiJson .reference coldSeed
            mainnetParams coldPath wrongPassword coldDisk =
          (.ok (some opened), coldDisk) ∧
        opened.seed ≠ coldSeed) ∧
      ¬OpensOwn asciiJson .reference coldSeed mainnetParams
        coldDisk coldPath wrongPassword
        (some (coldWallet, coldPassword)) := by
  have hHash :
      Crypto.reference.sha256 wrongPassword ≠
        Crypto.reference.sha256 coldPassword := by
    decide +kernel
  have hStored :
      StoredUnder .reference coldWallet coldPassword :=
    rfl
  have hOpen := openWallet_filed (c := .reference)
    coldDb_filed coldSeed mainnetParams wrongPassword
  refine
    ⟨coldWallet_origin, hStored, hHash, ⟨_, hOpen, ?_⟩, ?_⟩
  · exact decrypted_ne coldDb_filed.size hStored hHash
  · rintro ⟨-, hOther⟩
    have hRefused := hOther hHash
    rw [show coldPath = coldDb.path from rfl, hOpen]
      at hRefused
    cases hRefused

end Sample

end Amarian
