import Amarian.Wallet.Backup

/-
  A backup that is restored: the records it is made of are
  read back, except for what a record has no room for, and
  they go behind the accounts that are there.

  Key definitions include:
    * `Wallet.Account.backedUp`
    * `Wallet.Merges`
    * `Wallet.Restores`

  Key theorems include:
    * `Wallet.readAccountWithin_canonical`
    * `Wallet.scanBackup_exportBackup`
    * `Wallet.merges_iff`
    * `Wallet.restores_iff`
-/

------------------------------------------------------------
-- Records That Are Written
------------------------------------------------------------

namespace Amarian

namespace Wallet

open Codec

variable {Text : Type} {json : JsonLibrary Text} {c : Crypto}

/- What is left of an account in a backup. -/
def Account.backedUp
    (account : Account) : Account :=
  { account with
    gapLimit := account.gapLimit.toUInt32.toUInt64 }

theorem writeAccount_backedUp
    (account : Account) :
    writeAccount account.backedUp = writeAccount account := by
  unfold writeAccount Account.backedUp
  dsimp only
  rw [UInt32.toUInt32_toUInt64]

structure RecordWithin
    (maxScheme maxLabel : Nat)
    (account : Account) : Prop where
  scheme : Sized maxScheme account.schemeName.length
  label : Sized maxLabel account.label.length
  gap : account.backedUp = account

theorem readAccountWithin_canonical
    (maxScheme maxLabel : Nat) :
    Canonical writeAccount
      (readAccountWithin maxScheme maxLabel)
      (RecordWithin maxScheme maxLabel) := by
  have hFields :
      Canonical
        (fun account : Account =>
          writeByteString account.schemeName ++
            (writeU32 account.accountId ++
              (writeU32 account.highestDerived ++
                (writeU32 account.gapLimit.toUInt32 ++
                  (writeByteString account.label ++
                    [])))))
        (readAccountWithin maxScheme maxLabel)
        (RecordWithin maxScheme maxLabel) := by
    apply Canonical.step Account.schemeName
      (readByteString_canonical maxScheme)
      fun _ hWhole => hWhole.scheme
    intro schemeName hScheme
    apply Canonical.step Account.accountId
      readU32_canonical fun _ _ => trivial
    intro accountId _
    apply Canonical.step Account.highestDerived
      readU32_canonical fun _ _ => trivial
    intro highestDerived _
    apply Canonical.step
      (fun account : Account => account.gapLimit.toUInt32)
      readU32_canonical fun _ _ => trivial
    intro gap _
    apply Canonical.step Account.label
      (readByteString_canonical maxLabel)
      fun _ hWhole => hWhole.1.1.1.1.label
    intro label hLabel
    have hGap : gap.toUInt64.toUInt32 = gap :=
      UInt32.toUInt32_toUInt64 gap
    apply Canonical.done
    · refine
        ⟨⟨⟨⟨⟨⟨hScheme, hLabel, ?_⟩, rfl⟩, rfl⟩, rfl⟩,
          hGap⟩, rfl⟩
      unfold Account.backedUp
      dsimp only
      rw [hGap]
    · rintro account
        ⟨⟨⟨⟨⟨hWhole, rfl⟩, rfl⟩, rfl⟩, rfl⟩, rfl⟩
      have hSame := congrArg Account.gapLimit hWhole.gap
      unfold Account.backedUp at hSame
      dsimp only at hSame
      rw [hSame]
  apply Canonical.congr (fun _ => Iff.rfl) _ hFields
  intro account _
  rw [List.append_nil]
  rfl

/- Texts that fit into memory. -/
structure Account.InMemory
    (account : Account) : Prop where
  scheme : account.schemeName.length < 2 ^ 64
  label : account.label.length < 2 ^ 64

/- Texts that fit into a record. -/
structure Account.Short
    (account : Account) : Prop where
  scheme : account.schemeName.length ≤ 64
  label : account.label.length ≤ 128

theorem backedUp_backedUp
    (account : Account) :
    account.backedUp.backedUp = account.backedUp := by
  unfold Account.backedUp
  dsimp only
  rw [UInt32.toUInt32_toUInt64]

theorem readAccount_short
    {account : Account}
    (hShort : account.Short)
    (rest : ByteVec) :
    readAccount (.ofList (writeAccount account ++ rest)) =
      (some account.backedUp, .ofList rest) := by
  have hWithin : RecordWithin 64 128 account.backedUp :=
    ⟨⟨hShort.scheme, hShort.scheme.trans_lt (by decide)⟩,
      ⟨hShort.label, hShort.label.trans_lt (by decide)⟩,
      backedUp_backedUp account⟩
  rw [← writeAccount_backedUp]
  exact (readAccountWithin_canonical 64 128).complete _ _
    hWithin

/-
  What is read has to be the record that was written, since
  that is the only one with these bytes.
-/
theorem readAccount_long
    {account : Account}
    (hMemory : account.InMemory)
    (hLong : ¬account.Short)
    (rest : ByteVec) :
    (readAccount
        (.ofList (writeAccount account ++ rest))).1 =
      none := by
  rcases hRead : readAccount
    (.ofList (writeAccount account ++ rest)) with
    ⟨_ | found, after⟩
  · rfl
  · rcases (readAccountWithin_canonical 64 128).sound _ _ _
      rfl hRead with ⟨-, hFound, hUnread⟩
    have hWide : RecordWithin (2 ^ 64) (2 ^ 64) found :=
      ⟨⟨hFound.scheme.counted.le, hFound.scheme.counted⟩,
        ⟨hFound.label.counted.le, hFound.label.counted⟩,
        hFound.gap⟩
    have hOwn :
        RecordWithin (2 ^ 64) (2 ^ 64) account.backedUp :=
      ⟨⟨hMemory.scheme.le, hMemory.scheme⟩,
        ⟨hMemory.label.le, hMemory.label⟩,
        backedUp_backedUp account⟩
    have hBytes :
        writeAccount account.backedUp ++ rest =
          writeAccount found ++ after.unread := by
      rw [writeAccount_backedUp]
      exact hUnread
    rcases (readAccountWithin_canonical _ _).append_inj hOwn
      hWide hBytes with ⟨hSame, -⟩
    cases hSame
    exact absurd
      ⟨hFound.scheme.within, hFound.label.within⟩ hLong

theorem wholeAccounts_short
    {accounts : List Account}
    (hShort : ∀ account ∈ accounts, account.Short)
    (rest : ByteVec) :
    wholeAccounts accounts.length
        (.ofList (accounts.flatMap writeAccount ++ rest)) =
      (accounts.map Account.backedUp,
        some (.ofList rest)) := by
  induction accounts with
  | nil => rfl
  | cons account accounts ih =>
      rw [List.forall_mem_cons] at hShort
      rw [List.flatMap_cons, List.append_assoc,
        List.length_cons, wholeAccounts,
        readAccount_short hShort.1]
      dsimp only
      rw [ih hShort.2]
      rfl

/- By induction on the accounts in front of a long one. -/
theorem wholeAccounts_long
    {accounts : List Account}
    (hMemory : ∀ account ∈ accounts, account.InMemory)
    (hLong : ¬∀ account ∈ accounts, account.Short)
    (rest : ByteVec) :
    (wholeAccounts accounts.length
        (.ofList
          (accounts.flatMap writeAccount ++ rest))).2 =
      none := by
  induction accounts with
  | nil => exact absurd (fun _ hNot => nomatch hNot) hLong
  | cons account accounts ih =>
      rw [List.forall_mem_cons] at hMemory hLong
      rw [List.flatMap_cons, List.append_assoc,
        List.length_cons, wholeAccounts]
      by_cases hShort : account.Short
      · rw [readAccount_short hShort]
        exact ih hMemory.2 fun hAll => hLong ⟨hShort, hAll⟩
      · have hNone := readAccount_long hMemory.1 hShort
          (accounts.flatMap writeAccount ++ rest)
        rcases hRead : readAccount
          (.ofList (writeAccount account ++
            (accounts.flatMap writeAccount ++ rest))) with
          ⟨found, after⟩
        rw [hRead] at hNone
        cases hNone
        rfl

------------------------------------------------------------
-- Backups That Are Read Back
------------------------------------------------------------

structure WalletDb.InMemory
    (db : WalletDb) : Prop where
  count : db.accounts.length < 2 ^ 64
  texts : ∀ account ∈ db.accounts, account.InMemory

theorem scanMetadata_serialiseMetadata
    {db : WalletDb}
    (hMemory : db.InMemory) :
    scanMetadata (serialiseMetadata db) =
      { birthHeight := some db.birthHeight
        accounts :=
          (wholeAccounts db.accounts.length
            (.ofList
              (db.accounts.flatMap writeAccount))).1
        accepted :=
          ((wholeAccounts db.accounts.length
              (.ofList
                (db.accounts.flatMap writeAccount))).2.map
            finish).getD false } := by
  have hLeast : ∀ account,
      1 ≤ (writeAccount account).length := by
    intro account
    simp only [writeAccount, List.length_append, writeU32,
      littleEndian, List.length_cons]
    omega
  have hEnough := length_flatMap_ge hLeast db.accounts
  have hHeight := readU32_canonical.complete db.birthHeight
    (writeList writeAccount db.accounts) trivial
  have hCount := readCompactSize_complete Nat.one_pos
    hMemory.count hEnough
  rw [scanMetadata, serialiseMetadata, hHeight]
  dsimp only
  rw [writeList, hCount]

theorem scanBackup_exportBackup
    {wallet : Wallet}
    (hMemory : wallet.db.InMemory) :
    (scanBackup (exportBackup c wallet)).birthHeight =
        some wallet.db.birthHeight ∧
      ((scanBackup (exportBackup c wallet)).accepted = true ↔
        ∀ account ∈ wallet.db.accounts, account.Short) ∧
      ((∀ account ∈ wallet.db.accounts, account.Short) →
        (scanBackup (exportBackup c wallet)).accounts =
          wallet.db.accounts.map Account.backedUp) := by
  have hScan :
      scanBackup (exportBackup c wallet) =
        scanMetadata (serialiseMetadata wallet.db) :=
    rfl
  rw [hScan, scanMetadata_serialiseMetadata hMemory]
  dsimp only
  by_cases hShort :
    ∀ account ∈ wallet.db.accounts, account.Short
  · have hWhole := wholeAccounts_short hShort []
    rw [List.append_nil] at hWhole
    rw [hWhole]
    exact ⟨rfl, ⟨fun _ => hShort, fun _ => rfl⟩, fun _ => rfl⟩
  · have hWhole := wholeAccounts_long hMemory.texts hShort []
    rw [List.append_nil] at hWhole
    rw [hWhole]
    exact ⟨rfl, ⟨fun hNot => (nomatch hNot), fun hAll =>
      absurd hAll hShort⟩, fun hAll => absurd hAll hShort⟩

------------------------------------------------------------
-- Two Lists Of Accounts
------------------------------------------------------------

/-
  When the accounts of a backup, put behind those that are
  there, are those of the backup.  If any are there, the
  backup has to repeat them up to the limit.
-/
def Merges
    (mine theirs : List Account) : Prop :=
  (mine = [] ∧
      theirs.length ≤ maxAccounts ∧
      ∀ account ∈ theirs, account.backedUp = account) ∨
    (mine ≠ [] ∧
      mine <+: theirs ∧
      theirs.length = max maxAccounts mine.length ∧
      ∀ place,
        mine.length + place < theirs.length →
          theirs[mine.length + place]? =
            theirs[place]?.map Account.backedUp)

theorem merges_nil
    {theirs : List Account} :
    (theirs.map Account.backedUp).take maxAccounts =
        theirs ↔
      theirs.length ≤ maxAccounts ∧
        ∀ account ∈ theirs, account.backedUp = account := by
  have hMap :
      theirs.map Account.backedUp = theirs ↔
        ∀ account ∈ theirs, account.backedUp = account := by
    rw [← List.map_inj_left, List.map_id']
  constructor
  · intro hSame
    have hLength := congrArg List.length hSame
    rw [List.length_take, List.length_map] at hLength
    have hFew : theirs.length ≤ maxAccounts := by
      omega
    rw [List.take_of_length_le (by rwa [List.length_map])]
      at hSame
    exact ⟨hFew, hMap.mp hSame⟩
  · rintro ⟨hFew, hAll⟩
    rw [hMap.mpr hAll, List.take_of_length_le hFew]

theorem merges_cons
    {mine theirs : List Account}
    (hSome : mine ≠ []) :
    mine ++
          (theirs.map Account.backedUp).take
            (maxAccounts - mine.length) =
        theirs ↔
      mine <+: theirs ∧
        theirs.length = max maxAccounts mine.length ∧
        ∀ place,
          mine.length + place < theirs.length →
            theirs[mine.length + place]? =
              theirs[place]?.map Account.backedUp := by
  have hPositive := List.length_pos_iff.mpr hSome
  constructor
  · intro hSame
    have hLength := congrArg List.length hSame
    rw [List.length_append, List.length_take,
      List.length_map] at hLength
    refine ⟨⟨_, hSame⟩, by omega, ?_⟩
    intro place hPlace
    have hRoom : place < maxAccounts - mine.length := by
      omega
    have hThere := congrArg
      (fun accounts : List Account =>
        accounts[mine.length + place]?) hSame
    rw [List.getElem?_append_right (Nat.le_add_right _ _),
      Nat.add_sub_cancel_left,
      List.getElem?_take_of_lt hRoom, List.getElem?_map]
      at hThere
    exact hThere.symm
  · rintro ⟨⟨more, hMore⟩, hLength, hRepeats⟩
    have hCount := congrArg List.length hMore
    rw [List.length_append] at hCount
    refine Eq.trans ?_ hMore
    rw [List.append_cancel_left_eq]
    refine List.ext_getElem? fun place => ?_
    by_cases hPlace : place < more.length
    · have hRoom : place < maxAccounts - mine.length := by
        omega
      have hThere := hRepeats place (by omega)
      rw [List.getElem?_take_of_lt hRoom,
        List.getElem?_map, ← hThere, ← hMore,
        List.getElem?_append_right (Nat.le_add_right _ _),
        Nat.add_sub_cancel_left]
    · rw [List.getElem?_eq_none (Nat.not_lt.mp hPlace)]
      refine List.getElem?_eq_none ?_
      rw [List.length_take]
      omega

theorem merges_iff
    {mine theirs : List Account} :
    mine ++
          (theirs.map Account.backedUp).take
            (maxAccounts - mine.length) =
        theirs ↔
      Merges mine theirs := by
  unfold Merges
  by_cases hNone : mine = []
  · cases hNone
    rw [List.nil_append, List.length_nil, Nat.sub_zero,
      merges_nil]
    simp only [ne_eq, not_true_eq_false, false_and, or_false,
      true_and]
  · rw [merges_cons hNone]
    simp only [ne_eq, hNone, not_false_eq_true, false_and,
      false_or, true_and]

------------------------------------------------------------
-- Full Restores
------------------------------------------------------------

/- That a wallet has what a backup of another has. -/
structure SameRecord
    (theirs wallet : Wallet) : Prop where
  seed : wallet.seed = theirs.seed
  birthHeight : wallet.db.birthHeight = theirs.db.birthHeight
  accounts : wallet.db.accounts = theirs.db.accounts

/- What restoring the backup of a wallet is said to do. -/
def Restores
    (json : JsonLibrary Text)
    (c : Crypto)
    (fresh : MasterSeed)
    (params : ChainParams)
    (theirs : Wallet)
    (password : ByteVec)
    (session : Session Text) : Prop :=
  ∃ after,
    (restoreFromBackup json c (exportBackup c theirs)).run
        session =
      (.ok true, after) ∧
    SameRecord theirs after.wallet ∧
    ∃ opened disk,
      openWallet json c fresh params session.wallet.db.path
          password after.disk =
        (.ok (some opened), disk) ∧
      SameRecord theirs opened

/- An account that a backup can carry into a file. -/
structure Account.Portable
    (json : JsonLibrary Text)
    (account : Account) : Prop where
  short : account.Short
  scheme : json.isUtf8 account.schemeName = true
  label : json.isUtf8 account.label = true

theorem writable_iff
    {db : WalletDb}
    (hPath : db.path ≠ []) :
    Writable json db ↔
      (∀ account ∈ db.accounts,
          json.isUtf8 account.label = true ∧
            json.isUtf8 account.schemeName = true) ∧
        ∀ entry ∈ db.metadata,
          json.isUtf8 entry.1 = true ∧
            json.isUtf8 entry.2 = true := by
  simp only [Writable, WalletDb.texts, ne_eq, hPath,
    not_false_eq_true, true_imp_iff, List.forall_mem_append,
    List.forall_mem_flatMap, List.forall_mem_cons,
    List.not_mem_nil, false_imp_iff, implies_true, and_true]

section Restored

variable {session : Session Text} {theirs : Wallet}
variable {scan : MetadataScan}

theorem restored_same
    (hHeight :
      scan.birthHeight = some theirs.db.birthHeight)
    (hAccounts :
      session.wallet.db.accounts ++
          addedTo session.wallet.db scan.accounts =
        theirs.db.accounts) :
    SameRecord theirs
      (restored c session.wallet theirs.seed scan) := by
  refine ⟨rfl, ?_, hAccounts⟩
  change scan.birthHeight.getD _ = _
  rw [hHeight]
  rfl

theorem writable_of_restored :
    Writable json
        (restored c session.wallet theirs.seed scan).db →
      Writable json session.wallet.db :=
  writable_of_more rfl rfl rfl

theorem restored_filed
    {disk : Disk Text}
    (hPath : session.wallet.db.path ≠ [])
    (hDisk :
      OnDisk json disk
        (restored c session.wallet theirs.seed scan).db) :
    InFile json disk
      (restored c session.wallet theirs.seed scan).db where
  path := hPath
  hasSeed := rfl
  size := length_simpleEncrypt.trans theirs.seed.size_eq
  onDisk := hDisk

/- What is in the file is the seed, for the empty password. -/
theorem decrypted_restored
    {disk : Disk Text}
    (hFiled :
      InFile json disk
        (restored c session.wallet theirs.seed scan).db)
    (password : ByteVec) :
    decrypted c hFiled.size password = theirs.seed ↔
      c.sha256 password = c.sha256 [] := by
  rw [eq_comm (a := c.sha256 password),
    ← simpleDecrypt_eq_iff theirs.seed.size_eq]
  exact ⟨congrArg Bytes32.bytes, fun hBytes =>
    Bytes32.ext hBytes⟩

end Restored

/-
  A restore does all that it is said to only for a wallet
  under the empty password, and for accounts that can be
  carried over and do not double those that are there.
-/
theorem restores_iff
    {session : Session Text}
    {theirs : Wallet}
    (hPath : session.wallet.db.path ≠ [])
    (hMemory : theirs.db.InMemory)
    (hWords : RoundTrips c theirs.seed)
    (json : JsonLibrary Text)
    (fresh : MasterSeed)
    (params : ChainParams)
    (password : ByteVec) :
    Restores json c fresh params theirs password session ↔
      c.sha256 password = c.sha256 [] ∧
        Writable json session.wallet.db ∧
        (∀ account ∈ theirs.db.accounts,
          account.Portable json) ∧
        Merges session.wallet.db.accounts
          theirs.db.accounts := by
  rcases scanBackup_exportBackup (c := c) hMemory with
    ⟨hHeight, hAccepted, hAccounts⟩
  have hSpec :
      wpE (restoreFromBackup json c (exportBackup c theirs))
        _ session :=
    restoreFromBackup_spec hWords.back session
  unfold wpE wp at hSpec
  constructor
  · rintro ⟨after, hRun, hSame, opened, disk, hOpen, hOpened⟩
    rw [hRun] at hSpec
    rcases hSpec with
      ⟨hOutcome, hWritable, hWallet, hDisk⟩ | ⟨hError, -⟩
    · have hShort :=
        hAccepted.mp (Except.ok.inj hOutcome).symm
      have hFiled := restored_filed hPath hDisk
      have hReopen :=
        openWallet_filed (c := c) hFiled fresh params password
      rw [hWallet] at hSame
      have hAll := hSame.accounts
      have hTexts :=
        ((writable_iff hFiled.path).mp hWritable).1
      rw [hAll] at hTexts
      refine ⟨?_, writable_of_restored hWritable, ?_, ?_⟩
      · cases hReopen.symm.trans hOpen
        exact (decrypted_restored hFiled password).mp
          hOpened.seed
      · intro account hAccount
        have hBoth := hTexts account hAccount
        exact ⟨hShort account hAccount, hBoth.2, hBoth.1⟩
      · rw [← merges_iff, ← hAccounts hShort]
        exact hAll
    · cases hError
  · rintro ⟨hHash, hWritable, hPortable, hMerges⟩
    have hShort : ∀ account ∈ theirs.db.accounts,
        account.Short :=
      fun account hAccount => (hPortable account hAccount).short
    rw [← merges_iff, ← hAccounts hShort] at hMerges
    have hSame :
        SameRecord theirs
          (restored c session.wallet theirs.seed
            (scanBackup (exportBackup c theirs))) :=
      restored_same hHeight hMerges
    rcases hRun :
      (restoreFromBackup json c (exportBackup c theirs)).run
        session with ⟨outcome, after⟩
    rw [hRun] at hSpec
    rcases hSpec with
      ⟨hOutcome, -, hWallet, hDisk⟩ | ⟨-, hNot⟩
    · have hFiled := restored_filed hPath hDisk
      have hReopen :=
        openWallet_filed (c := c) hFiled fresh params password
      dsimp only at hOutcome hWallet
      rw [hAccepted.mpr hShort] at hOutcome
      refine ⟨after, ?_, ?_, _, _, hReopen, ?_⟩
      · rw [hRun, hOutcome]
      · rw [hWallet]
        exact hSame
      · exact
          ⟨(decrypted_restored hFiled password).mpr hHash,
            hSame.birthHeight, hSame.accounts⟩
    · refine absurd ?_ hNot
      have hMetadata :=
        ((writable_iff hPath).mp hWritable).2
      have hLast :
          (restored c session.wallet theirs.seed
            (scanBackup (exportBackup c theirs))).db.path ≠
            [] :=
        hPath
      refine (writable_iff hLast).mpr ⟨?_, hMetadata⟩
      rw [hSame.accounts]
      intro account hAccount
      have hCarried := hPortable account hAccount
      exact ⟨hCarried.label, hCarried.scheme⟩

end Wallet

------------------------------------------------------------
-- Samples
------------------------------------------------------------

namespace Sample

open Wallet

def warmWallet : Wallet :=
  holding mainnetParams warmSeed
    (firstDb .reference warmSeed (asciiBytes "other.json")
      wrongPassword)

theorem warmWallet_inMemory : warmWallet.db.InMemory := by
  refine ⟨by decide, ?_⟩
  intro account hAccount
  cases List.mem_singleton.mp hAccount
  exact ⟨by decide, by decide⟩

/- A wallet whose accounts were all taken out. -/
def bareSession : Session (Option JsonValue) :=
  { disk := emptyDisk
    wallet :=
      holding mainnetParams coldSeed
        { firstDb .reference coldSeed coldPath [] with
          accounts := [] } }

/- Under the empty password it takes over a new wallet. -/
theorem bareSession_restores :
    Restores asciiJson .reference coldSeed mainnetParams
      warmWallet [] bareSession := by
  refine (restores_iff (by decide) warmWallet_inMemory
    warmSeed_roundTrips asciiJson coldSeed mainnetParams
    []).mpr ⟨rfl, ?_, ?_, .inl ⟨rfl, ?_, ?_⟩⟩
  · intro _ text hText
    cases hText
  · intro account hAccount
    cases List.mem_singleton.mp hAccount
    exact ⟨⟨by decide, by decide⟩, by decide, by decide⟩
  · decide
  · intro account hAccount
    cases List.mem_singleton.mp hAccount
    decide

/- Between two new wallets, the account is there twice. -/
theorem coldSession_doubles :
    coldSession.wallet.db.path ≠ [] ∧
      RoundTrips .reference warmWallet.seed ∧
      (∃ after,
        (restoreFromBackup asciiJson .reference
            (exportBackup .reference warmWallet)).run
            coldSession =
          (.ok true, after) ∧
        after.wallet.db.accounts =
          [everydayAccount, everydayAccount]) ∧
      ¬Restores asciiJson .reference coldSeed mainnetParams
        warmWallet coldPassword coldSession := by
  have hPath : coldSession.wallet.db.path ≠ [] := by
    decide
  have hAccounts :
      (restored .reference coldWallet warmSeed
        (scanBackup
          (exportBackup .reference
            warmWallet))).db.accounts =
        [everydayAccount, everydayAccount] := by
    decide +kernel
  have hWritable :
      Writable asciiJson
        (restored .reference coldWallet warmSeed
          (scanBackup
            (exportBackup .reference warmWallet))).db := by
    have hLast :
        (restored .reference coldWallet warmSeed
          (scanBackup
            (exportBackup .reference
              warmWallet))).db.path ≠ [] :=
      hPath
    refine (writable_iff hLast).mpr ⟨?_, ?_⟩
    · rw [hAccounts]
      decide
    · intro entry hEntry
      cases hEntry
  have hSpec :
      wpE
        (restoreFromBackup asciiJson .reference
          (exportBackup .reference warmWallet)) _
        coldSession :=
    restoreFromBackup_spec warmSeed_roundTrips.back
      coldSession
  unfold wpE wp at hSpec
  rcases hRun :
    (restoreFromBackup asciiJson .reference
      (exportBackup .reference warmWallet)).run
      coldSession with ⟨outcome, after⟩
  rw [hRun] at hSpec
  rcases hSpec with ⟨hOutcome, -, hWallet, -⟩ | ⟨-, hNot⟩
  · dsimp only at hOutcome hWallet
    have hDone :
        (scanBackup
          (exportBackup .reference
            warmWallet)).accepted = true := by
      decide +kernel
    have hTwice := (congrArg
      (fun wallet : Wallet => wallet.db.accounts)
      hWallet).trans hAccounts
    rw [hDone] at hOutcome
    refine ⟨hPath, warmSeed_roundTrips,
      ⟨after, by rw [hOutcome], hTwice⟩, ?_⟩
    rintro ⟨later, hLater, hSame, -⟩
    rw [hRun] at hLater
    cases hLater
    have hOnce := hSame.accounts
    rw [hTwice] at hOnce
    cases hOnce
  · exact absurd hWritable hNot

end Sample

end Amarian
