import Amarian.Util.Reader
import Amarian.Wallet.Mnemonic
import Amarian.Wallet.Opening

/-
  Backups of a wallet: the words of its seed and a record of
  its accounts, and how another wallet takes them over.

  A restore writes as it reads, so what it had done before
  it refuses is done.

  Key definitions include:
    * `Wallet.exportBackup`
    * `Wallet.restoreFromBackup`
    * `Wallet.scanBackup`
    * `Wallet.RefusedCleanly`

  Key theorems include:
    * `Wallet.restoreFromBackup_spec`
    * `Wallet.refused_unchanged_iff`
-/

------------------------------------------------------------
-- Writing A Backup
------------------------------------------------------------

namespace Amarian

namespace Wallet

open Codec

/- The gap limit is cut to 32 bits. -/
def writeAccount
    (account : Account) : ByteVec :=
  writeByteString account.schemeName ++
    (writeU32 account.accountId ++
      (writeU32 account.highestDerived ++
        (writeU32 account.gapLimit.toUInt32 ++
          writeByteString account.label)))

def serialiseMetadata
    (db : WalletDb) : ByteVec :=
  writeU32 db.birthHeight ++
    writeList writeAccount db.accounts

/- The words, and the accounts as bytes. -/
structure WalletBackup where
  mnemonic : List String
  metadata : ByteVec

def exportBackup
    (c : Crypto)
    (wallet : Wallet) : WalletBackup :=
  { mnemonic := generateMnemonic c wallet.seed
    metadata := serialiseMetadata wallet.db }

------------------------------------------------------------
-- Restoring One
------------------------------------------------------------

/- A record whose texts are at most so long. -/
def readAccountWithin
    (maxScheme maxLabel : Nat) :
    Decoder UInt8 Account := do
  let schemeName ← readByteString maxScheme
  let accountId ← readU32
  let highestDerived ← readU32
  let gap ← readU32
  let label ← readByteString maxLabel
  pure
    { label, schemeName, accountId, highestDerived
      gapLimit := gap.toUInt64 }

def readAccount : Decoder UInt8 Account :=
  readAccountWithin 64 128

section Restoring

variable {Text : Type} (json : JsonLibrary Text) (c : Crypto)

/- Every record is added, and saved, before the next is read. -/
def addAccounts :
    Nat → ByteReader → Storing Text (Option ByteReader)
  | 0, reader => pure (some reader)
  | count + 1, reader =>
      match readAccount reader with
      | (none, _) => pure none
      | (some account, after) => do
          addAccount json account
          addAccounts count after

def finish
    (reader : ByteReader) : Bool :=
  reader.ok && reader.unread.isEmpty

def deserialiseMetadata
    (metadata : ByteVec) : Storing Text Bool :=
  match readU32 (.ofList metadata) with
  | (none, _) => pure false
  | (some birthHeight, reader) => do
      setBirthHeight json birthHeight
      match readCompactSize 1 reader with
      | (none, _) => pure false
      | (some count, reader) => do
          match ← addAccounts json count reader with
          | none => pure false
          | some reader => pure (finish reader)

/- The seed is stored under the empty password. -/
def restoreFromBackup
    (backup : WalletBackup) : Storing Text Bool :=
  match seedFromMnemonic c backup.mnemonic with
  | none => pure false
  | some seed => do
      modify fun session =>
        { session with
          wallet := { session.wallet with seed } }
      storeSeed json c seed.bytes []
      if backup.metadata.isEmpty then
        setBirthHeight json 0
        pure true
      else
        deserialiseMetadata json backup.metadata

end Restoring

------------------------------------------------------------
-- What A Backup Says
------------------------------------------------------------

/- The records in front, up to one that is not whole. -/
def wholeAccounts :
    Nat → ByteReader → List Account × Option ByteReader
  | 0, reader => ([], some reader)
  | count + 1, reader =>
      match readAccount reader with
      | (none, _) => ([], none)
      | (some account, after) =>
          (account :: (wholeAccounts count after).1,
            (wholeAccounts count after).2)

/- What metadata says before it is taken or refused. -/
structure MetadataScan where
  birthHeight : Option UInt32
  accounts : List Account
  accepted : Bool

/- What reading the metadata yields, without the wallet. -/
def scanMetadata
    (metadata : ByteVec) : MetadataScan :=
  match readU32 (.ofList metadata) with
  | (none, _) =>
      { birthHeight := none, accounts := [], accepted := false }
  | (some birthHeight, reader) =>
      match readCompactSize 1 reader with
      | (none, _) =>
          { birthHeight := some birthHeight
            accounts := []
            accepted := false }
      | (some count, reader) =>
          { birthHeight := some birthHeight
            accounts := (wholeAccounts count reader).1
            accepted :=
              ((wholeAccounts count reader).2.map
                finish).getD false }

/- The words alone are enough. -/
def scanBackup
    (backup : WalletBackup) : MetadataScan :=
  if backup.metadata.isEmpty then
    { birthHeight := some 0, accounts := [], accepted := true }
  else
    scanMetadata backup.metadata

/- There is room for so many more. -/
def addedTo
    (db : WalletDb)
    (accounts : List Account) : List Account :=
  accounts.take (maxAccounts - db.accounts.length)

def WalletDb.adding
    (db : WalletDb)
    (accounts : List Account) : WalletDb :=
  { db with accounts := db.accounts ++ addedTo db accounts }

def WalletDb.taking
    (db : WalletDb)
    (scan : MetadataScan) : WalletDb :=
  { db.adding scan.accounts with
    birthHeight := scan.birthHeight.getD db.birthHeight }

def WalletDb.seeded
    (c : Crypto)
    (db : WalletDb)
    (seed : MasterSeed) : WalletDb :=
  { db with
    encryptedSeed := simpleEncrypt c seed.bytes []
    hasSeed := true }

/- The wallet after its seed and its accounts are taken. -/
def restored
    (c : Crypto)
    (wallet : Wallet)
    (seed : MasterSeed)
    (scan : MetadataScan) : Wallet :=
  { wallet with
    seed
    db := (wallet.db.seeded c seed).taking scan }

------------------------------------------------------------
-- What A Restore Does
------------------------------------------------------------

variable {Text : Type} {json : JsonLibrary Text} {c : Crypto}

/-
  A computation that ends with an answer and a database in
  memory and on the disk, unless that cannot be written.
-/
def Leaves
    {α : Type}
    (json : JsonLibrary Text)
    (step : Storing Text α)
    (answer : α)
    (session : Session Text)
    (db : WalletDb) : Prop :=
  wpE step
    (fun outcome after =>
      (outcome = .ok answer ∧
          Writable json db ∧
          after.wallet = { session.wallet with db } ∧
          OnDisk json after.disk db) ∨
        (outcome = .error .invalidUtf8 ∧
          ¬Writable json db))
    session

theorem leaves_updateDb
    (change : WalletDb → WalletDb)
    (session : Session Text) :
    Leaves json (updateDb json change) () session
      (change session.wallet.db) :=
  updateDb_spec change session

/- What is written later is written on top. -/
theorem Leaves.bind
    {α β : Type}
    {step : Storing Text α}
    {next : α → Storing Text β}
    {answer : α}
    {result : β}
    {session : Session Text}
    {db last : WalletDb}
    (hStep : Leaves json step answer session db)
    (hMore : Writable json last → Writable json db)
    (hNext :
      ∀ after : Session Text,
        after.wallet = { session.wallet with db } →
          Writable json db →
            OnDisk json after.disk db →
              Leaves json (next answer) result after last) :
    Leaves json (step >>= next) result session last := by
  unfold Leaves
  rw [wpE_bind]
  refine wpE_mono hStep ?_
  rintro outcome after
    (⟨rfl, hWritable, hWallet, hDisk⟩ | ⟨rfl, hNot⟩)
  · have hLast := hNext after hWallet hWritable hDisk
    refine wpE_mono hLast ?_
    rintro outcome later
      (⟨rfl, hWritten, hAfter, hLater⟩ | ⟨rfl, hFailed⟩)
    · rw [hWallet] at hAfter
      exact .inl ⟨rfl, hWritten, hAfter, hLater⟩
    · exact .inr ⟨rfl, hFailed⟩
  · exact .inr ⟨rfl, fun hLast => hNot (hMore hLast)⟩

theorem leaves_pure
    {α : Type}
    {answer : α}
    {session : Session Text}
    {db : WalletDb}
    (hDb : session.wallet.db = db)
    (hWritable : Writable json db)
    (hDisk : OnDisk json session.disk db) :
    Leaves json (pure answer) answer session db := by
  cases hDb
  exact .inl ⟨rfl, hWritable, rfl, hDisk⟩

section Adding

variable {db : WalletDb}

theorem adding_nil :
    db.adding [] = db := by
  rw [WalletDb.adding, addedTo, List.take_nil,
    List.append_nil]

/- One account after the other, as long as there is room. -/
theorem adding_cons
    (account : Account)
    (accounts : List Account) :
    (db.adding [account]).adding accounts =
      db.adding (account :: accounts) := by
  have hAccounts :
      addedTo db [account] ++
          addedTo (db.adding [account]) accounts =
        addedTo db (account :: accounts) := by
    unfold addedTo WalletDb.adding addedTo
    dsimp only
    cases hRoom : maxAccounts - db.accounts.length with
    | zero =>
        simp only [List.take_zero, List.append_nil, hRoom]
    | succ room =>
        have hLess :
            maxAccounts -
                (db.accounts ++ [account]).length =
              room := by
          rw [List.length_append, List.length_singleton]
          omega
        rw [List.take_succ_cons, List.take_nil, hLess,
          List.take_succ_cons]
        rfl
  unfold WalletDb.adding at hAccounts ⊢
  dsimp only at hAccounts ⊢
  rw [List.append_assoc, hAccounts]

/- Fewer accounts are written if more of them are. -/
theorem writable_of_more
    {last : WalletDb}
    {more : List Account}
    (hPath : last.path = db.path)
    (hAccounts : last.accounts = db.accounts ++ more)
    (hMetadata : last.metadata = db.metadata)
    (hWritable : Writable json last) :
    Writable json db := by
  intro hSome text hText
  rw [← hPath] at hSome
  refine hWritable hSome text ?_
  simp only [WalletDb.texts, hAccounts, hMetadata,
    List.flatMap_append, List.mem_append] at hText ⊢
  rcases hText with hAccount | hEntry
  · exact .inl (.inl hAccount)
  · exact .inr hEntry

end Adding

theorem leaves_addAccount
    {session : Session Text}
    {db : WalletDb}
    (hDb : session.wallet.db = db)
    (hWritable : Writable json db)
    (hDisk : OnDisk json session.disk db)
    (account : Account) :
    Leaves json (addAccount json account) () session
      (db.adding [account]) := by
  cases hDb
  unfold Leaves addAccount
  rw [wpE_get_bind]
  split
  case isTrue hFull =>
    have hRoom :
        maxAccounts - session.wallet.db.accounts.length =
          0 :=
      Nat.sub_eq_zero_of_le hFull
    have hSame :
        session.wallet.db.adding [account] =
          session.wallet.db := by
      rw [WalletDb.adding, addedTo, hRoom, List.take_zero,
        List.append_nil]
    rw [hSame]
    exact leaves_pure rfl hWritable hDisk
  case isFalse hRoom =>
    have hAdded :
        addedTo session.wallet.db [account] = [account] := by
      refine List.take_of_length_le ?_
      rw [List.length_singleton]
      omega
    rw [WalletDb.adding, hAdded]
    exact leaves_updateDb _ session

/- By induction on the records that are left. -/
theorem leaves_addAccounts
    {session : Session Text}
    {db : WalletDb}
    (hDb : session.wallet.db = db)
    (hWritable : Writable json db)
    (hDisk : OnDisk json session.disk db)
    (count : Nat)
    (reader : ByteReader) :
    Leaves json (addAccounts json count reader)
      (wholeAccounts count reader).2 session
      (db.adding (wholeAccounts count reader).1) := by
  induction count generalizing session db reader with
  | zero =>
      rw [wholeAccounts, adding_nil]
      exact leaves_pure hDb hWritable hDisk
  | succ count ih =>
      rw [addAccounts, wholeAccounts]
      rcases readAccount reader with ⟨_ | account, after⟩
      · dsimp only
        rw [adding_nil]
        exact leaves_pure hDb hWritable hDisk
      · dsimp only
        rw [← adding_cons]
        refine (leaves_addAccount hDb hWritable hDisk
          account).bind (writable_of_more rfl rfl rfl) ?_
        intro next hWallet hWritten hStored
        exact ih (congrArg Wallet.db hWallet) hWritten
          hStored after

theorem leaves_setBirthHeight
    {session : Session Text}
    {db : WalletDb}
    (hDb : session.wallet.db = db)
    (birthHeight : UInt32) :
    Leaves json (setBirthHeight json birthHeight) () session
      { db with birthHeight } := by
  cases hDb
  exact leaves_updateDb _ session

/- Whatever is read is taken, also if it is refused later. -/
theorem leaves_deserialiseMetadata
    {session : Session Text}
    {db : WalletDb}
    (hDb : session.wallet.db = db)
    (hWritable : Writable json db)
    (hDisk : OnDisk json session.disk db)
    (metadata : ByteVec) :
    Leaves json (deserialiseMetadata json metadata)
      (scanMetadata metadata).accepted session
      (db.taking (scanMetadata metadata)) := by
  cases hDb
  unfold deserialiseMetadata scanMetadata WalletDb.taking
  rcases readU32 (.ofList metadata) with
    ⟨_ | birthHeight, reader⟩
  · dsimp only
    rw [adding_nil]
    exact leaves_pure rfl hWritable hDisk
  dsimp only
  refine (leaves_setBirthHeight rfl birthHeight).bind
    (writable_of_more rfl rfl rfl) ?_
  intro born hBorn hWritten hStored
  have hDb := congrArg Wallet.db hBorn
  rcases readCompactSize 1 reader with ⟨_ | count, rest⟩
  · dsimp only
    rw [adding_nil]
    exact leaves_pure hDb hWritten hStored
  dsimp only
  refine (leaves_addAccounts hDb hWritten hStored count
    rest).bind id ?_
  intro after hAfter hTaken hSaved
  have hLast := congrArg Wallet.db hAfter
  rcases (wholeAccounts count rest).2 with _ | left
  · exact leaves_pure hLast hTaken hSaved
  · exact leaves_pure hLast hTaken hSaved

/- A restore, from words that are those of a seed. -/
theorem restoreFromBackup_spec
    {backup : WalletBackup}
    {seed : MasterSeed}
    (hSeed :
      seedFromMnemonic c backup.mnemonic = some seed)
    (session : Session Text) :
    wpE (restoreFromBackup json c backup)
      (fun outcome after =>
        (outcome = .ok (scanBackup backup).accepted ∧
            Writable json
              (restored c session.wallet seed
                (scanBackup backup)).db ∧
            after.wallet =
              restored c session.wallet seed
                (scanBackup backup) ∧
            OnDisk json after.disk
              (restored c session.wallet seed
                (scanBackup backup)).db) ∨
          (outcome = .error .invalidUtf8 ∧
            ¬Writable json
              (restored c session.wallet seed
                (scanBackup backup)).db))
      session := by
  unfold restoreFromBackup
  rw [hSeed]
  dsimp only
  rw [wpE_bind]
  change wpE _ _
    { session with
      wallet := { session.wallet with seed } }
  have hStored :
      Leaves json (storeSeed json c seed.bytes []) ()
        { session with
          wallet := { session.wallet with seed } }
        (session.wallet.db.seeded c seed) :=
    leaves_updateDb _ _
  refine hStored.bind (writable_of_more rfl rfl rfl) ?_
  intro after hAfter hWritten hSaved
  have hDb :
      after.wallet.db = session.wallet.db.seeded c seed :=
    congrArg Wallet.db hAfter
  unfold scanBackup
  split
  · unfold restored WalletDb.taking
    rw [adding_nil]
    refine (leaves_setBirthHeight hDb 0).bind id ?_
    intro born hBorn hTaken hSaved
    have hLast := congrArg Wallet.db hBorn
    exact leaves_pure hLast hTaken hSaved
  · exact leaves_deserialiseMetadata hDb hWritten hSaved
      backup.metadata

------------------------------------------------------------
-- Refusals
------------------------------------------------------------

/- What a restore that fails is said not to touch. -/
structure Unchanged
    (before after : Wallet) : Prop where
  seed : after.seed = before.seed
  stored : after.db.storedSeed = before.db.storedSeed
  birthHeight : after.db.birthHeight = before.db.birthHeight
  accounts : after.db.accounts = before.db.accounts

/- That a wallet is already as a backup would have it. -/
structure NothingNew
    (c : Crypto)
    (wallet : Wallet)
    (seed : MasterSeed)
    (scan : MetadataScan) : Prop where
  sameSeed : wallet.seed = seed
  hasSeed : wallet.db.hasSeed = true
  stored :
    wallet.db.encryptedSeed =
      simpleEncrypt c seed.bytes []
  birthHeight :
    ∀ height ∈ scan.birthHeight,
      height = wallet.db.birthHeight
  accounts :
    scan.accounts = [] ∨
      maxAccounts ≤ wallet.db.accounts.length

/- That a backup is not refused after something was done. -/
def RefusedCleanly
    (json : JsonLibrary Text)
    (c : Crypto)
    (wallet : Wallet)
    (backup : WalletBackup) : Prop :=
  ∀ seed,
    seedFromMnemonic c backup.mnemonic = some seed →
      (scanBackup backup).accepted = false →
        Writable json
            (wallet.db.adding (scanBackup backup).accounts) →
          NothingNew c wallet seed (scanBackup backup)

theorem addedTo_eq_nil
    {db : WalletDb}
    {accounts : List Account} :
    addedTo db accounts = [] ↔
      accounts = [] ∨ maxAccounts ≤ db.accounts.length := by
  rw [addedTo, List.take_eq_nil_iff, or_comm,
    Nat.sub_eq_zero_iff_le]

theorem unchanged_restored_iff
    {wallet : Wallet}
    {seed : MasterSeed}
    {scan : MetadataScan} :
    Unchanged wallet (restored c wallet seed scan) ↔
      NothingNew c wallet seed scan := by
  constructor
  · rintro ⟨hSeed, hStored, hHeight, hAccounts⟩
    have hKept :
        some (simpleEncrypt c seed.bytes []) =
          wallet.db.storedSeed :=
      hStored
    have hAll :
        wallet.db.accounts ++
            addedTo wallet.db scan.accounts =
          wallet.db.accounts :=
      hAccounts
    unfold WalletDb.storedSeed at hKept
    split at hKept
    case isFalse => cases hKept
    case isTrue hHas =>
      refine ⟨hSeed.symm, hHas, (Option.some.inj hKept).symm,
        ?_, ?_⟩
      · intro height hSome
        have hNew :
            scan.birthHeight.getD wallet.db.birthHeight =
              wallet.db.birthHeight :=
          hHeight
        rw [hSome] at hNew
        exact hNew
      · rw [← addedTo_eq_nil]
        exact List.append_right_eq_self.mp hAll
  · intro hNew
    refine ⟨hNew.sameSeed.symm, ?_, ?_, ?_⟩
    · rw [WalletDb.storedSeed, WalletDb.storedSeed,
        if_pos hNew.hasSeed, hNew.stored]
      rfl
    · change scan.birthHeight.getD wallet.db.birthHeight = _
      cases hHeight : scan.birthHeight with
      | none => rfl
      | some height => exact hNew.birthHeight height hHeight
    · change wallet.db.accounts ++ _ = _
      rw [List.append_right_eq_self]
      exact addedTo_eq_nil.mpr hNew.accounts

/-
  A restore that fails changes nothing only where nothing of
  what it read first was new.
-/
theorem refused_unchanged_iff
    (json : JsonLibrary Text)
    (c : Crypto)
    (backup : WalletBackup)
    (session : Session Text) :
    (∀ after,
        (restoreFromBackup json c backup).run session =
            (.ok false, after) →
          Unchanged session.wallet after.wallet) ↔
      RefusedCleanly json c session.wallet backup := by
  unfold RefusedCleanly
  cases hSeed : seedFromMnemonic c backup.mnemonic with
  | none =>
      have hRun :
          (restoreFromBackup json c backup).run session =
            (.ok false, session) := by
        unfold restoreFromBackup
        rw [hSeed]
        rfl
      refine ⟨fun _ seed hNot => (nomatch hNot), ?_⟩
      intro _ after hAfter
      rw [hRun] at hAfter
      cases hAfter
      exact ⟨rfl, rfl, rfl, rfl⟩
  | some seed =>
      have hSpec :
          wpE (restoreFromBackup json c backup) _ session :=
        restoreFromBackup_spec hSeed session
      unfold wpE wp at hSpec
      rcases hRun :
        (restoreFromBackup json c backup).run session with
        ⟨outcome, after⟩
      rw [hRun] at hSpec
      rcases hSpec with
        ⟨hOutcome, hWritable, hWallet, -⟩ | ⟨hOutcome, hNot⟩
      · dsimp only at hOutcome hWallet
        cases hAccepted : (scanBackup backup).accepted with
        | true =>
            rw [hAccepted] at hOutcome
            subst hOutcome
            refine ⟨fun _ _ _ hNo => (nomatch hNo), ?_⟩
            rintro - later hLater
            cases hLater
        | false =>
            rw [hAccepted] at hOutcome
            subst hOutcome
            have hSame :
                Unchanged session.wallet after.wallet ↔
                  NothingNew c session.wallet seed
                    (scanBackup backup) := by
              rw [hWallet]
              exact unchanged_restored_iff
            constructor
            · rintro hAll other hOther - -
              cases hOther
              exact hSame.mp (hAll after rfl)
            · intro hClean later hLater
              cases hLater
              exact hSame.mpr
                (hClean seed rfl rfl hWritable)
      · dsimp only at hOutcome
        subst hOutcome
        constructor
        · rintro - other hOther - hWritable
          cases hOther
          exact absurd hWritable hNot
        · rintro - later hLater
          cases hLater

end Wallet

------------------------------------------------------------
-- Samples
------------------------------------------------------------

namespace Sample

open Wallet

def warmSeed : MasterSeed :=
  .ofList (List.replicate 32 0x22)

theorem warmSeed_roundTrips :
    RoundTrips .reference warmSeed := by
  refine roundTrips_iff.mpr ?_
  unfold NoneMissing
  decide +kernel

def coldSession : Session (Option JsonValue) :=
  { disk := coldDisk, wallet := coldWallet }

/- The metadata ends inside the birth height. -/
def cutBackup : WalletBackup :=
  { mnemonic := generateMnemonic .reference warmSeed
    metadata := [1] }

/- It is refused, and the wallet has its seed. -/
theorem cutBackup_replaces_seed :
    ∃ after,
      (restoreFromBackup asciiJson .reference cutBackup).run
          coldSession =
        (.ok false, after) ∧
      after.wallet.seed = warmSeed ∧
      coldWallet.seed ≠ warmSeed ∧
      ¬Unchanged coldWallet after.wallet := by
  have hSeed : coldWallet.seed ≠ warmSeed := by
    decide
  have hWritable :
      Writable asciiJson
        (restored .reference coldWallet warmSeed
          (scanBackup cutBackup)).db := by
    intro _ text hText
    exact everydayAccount_utf8 text hText
  have hSpec :
      wpE
        (restoreFromBackup asciiJson .reference cutBackup) _
        coldSession :=
    restoreFromBackup_spec warmSeed_roundTrips.back
      coldSession
  unfold wpE wp at hSpec
  rcases hRun :
    (restoreFromBackup asciiJson .reference cutBackup).run
      coldSession with ⟨outcome, after⟩
  rw [hRun] at hSpec
  rcases hSpec with ⟨hOutcome, -, hWallet, -⟩ | ⟨-, hNot⟩
  · dsimp only at hOutcome hWallet
    refine ⟨after, ?_, ?_, hSeed, ?_⟩
    · rw [hOutcome]
      rfl
    · rw [hWallet]
      rfl
    · intro hSame
      have hKept := hSame.seed
      rw [hWallet] at hKept
      exact hSeed hKept.symm
  · exact absurd hWritable hNot

end Sample

end Amarian
