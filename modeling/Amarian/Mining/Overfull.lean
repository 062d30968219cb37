import Amarian.Mempool.Arrivals
import Amarian.Mining.Building
import Amarian.Mining.Line

/-
  A chain with one coin that anybody can spend, and a pool
  of one transaction that spends it to so many outputs.

  Depending on their number, the template that the node
  assembles from that pool is a block or is too heavy.

  Key definitions include:
    * `filler`
    * `fillerPool`

  Key theorems include:
    * `filler_weight`
    * `fillerPool_selection`
    * `template_accepted`
    * `template_overfull`
-/

------------------------------------------------------------
-- The Only Entry
------------------------------------------------------------

namespace Amarian

namespace Mempool

section Single

variable {c : Crypto} {now : Int64} {pool : Mempool}
variable {arrival : Transaction × Int64}

theorem Holds.find_single
    (hHolds : Holds c now [arrival] pool) :
    pool.find (arrival.1.wtxid c) =
        some (entryFor c arrival.1 arrival.2 now) ∧
      pool.contains (arrival.1.wtxid c) = true := by
  have hFound := hHolds.found (List.mem_singleton_self arrival)
  refine ⟨?_, contains_iff.mpr ⟨_, hFound⟩⟩
  rw [find, hFound]
  rfl

theorem Holds.ranked_single
    (hHolds : Holds c now [arrival] pool) :
    pool.ranked =
      [pool.candidate (arrival.1.wtxid c)] := by
  have hNodup : pool.wtxids.Nodup := pool.entries.nodupKeys
  have hKeys : pool.wtxids = [arrival.1.wtxid c] := by
    rw [← List.perm_singleton, List.perm_ext_iff_of_nodup
      hNodup (List.nodup_singleton _)]
    intro id
    rw [List.mem_singleton, mem_wtxids]
    constructor
    · intro hId
      rcases contains_iff.mp hId with ⟨links, hFound⟩
      rcases (hHolds.entries id links).mp hFound with
        ⟨own, hOwn, rfl, -⟩
      rw [List.mem_singleton.mp hOwn]
    · rintro rfl
      exact hHolds.find_single.2
  rw [ranked, hKeys]
  rfl

theorem Holds.packageOf_single
    (hHolds : Holds c now [arrival] pool) :
    pool.packageOf [] (arrival.1.wtxid c) =
        [arrival.1.wtxid c] ∧
      pool.packageWeight [arrival.1.wtxid c] =
        arrival.1.weight := by
  rcases hHolds.find_single with ⟨hFind, hContains⟩
  constructor
  · rw [packageOf,
      hHolds.ancestorsOf (List.mem_singleton_self _),
      List.filter_singleton, hContains]
    rfl
  · simp [packageWeight, hFind, entryFor]

theorem Holds.emit_single
    (hHolds : Holds c now [arrival] pool) :
    pool.emit 1 [arrival.1.wtxid c] .empty =
      Selection.empty.take (arrival.1.wtxid c)
        (entryFor c arrival.1 arrival.2 now) := by
  have hReady :
      pool.isReady [] (arrival.1.wtxid c) = true := by
    rw [isReady,
      hHolds.found (List.mem_singleton_self arrival)]
    rfl
  have hNext :
      [arrival.1.wtxid c].find? (pool.isReady []) =
        some (arrival.1.wtxid c) := by
    rw [List.find?_cons, hReady]
  unfold emit
  rw [show Selection.empty.included = [] from rfl, hNext]
  dsimp only
  rw [hHolds.find_single.1]
  rfl

/- One entry without parents is taken if it fits. -/
theorem Holds.getTemplates_single
    (hHolds : Holds c now [arrival] pool)
    {available : Nat}
    (hFits : arrival.1.weight ≤ available) :
    pool.getTemplates available =
      [entryFor c arrival.1 arrival.2 now] := by
  have hRoom :
      ¬Selection.empty.used + arrival.1.weight > available := by
    change ¬0 + arrival.1.weight > available
    omega
  have hConsider :
      pool.consider available .empty
          (pool.candidate (arrival.1.wtxid c)) =
        Selection.empty.take (arrival.1.wtxid c)
          (entryFor c arrival.1 arrival.2 now) := by
    rw [consider,
      show (pool.candidate (arrival.1.wtxid c)).id =
        arrival.1.wtxid c from rfl,
      show Selection.empty.included = [] from rfl,
      if_neg List.not_mem_nil, hHolds.packageOf_single.1]
    dsimp only
    rw [hHolds.packageOf_single.2, if_neg hRoom]
    exact hHolds.emit_single
  rw [getTemplates, selection, hHolds.ranked_single,
    List.foldl_cons, List.foldl_nil, hConsider]
  rfl

end Single

end Mempool

------------------------------------------------------------
-- The Coin
------------------------------------------------------------

namespace Sample

/- Anyone may spend it. -/
def openOutput : TxOutput :=
  { amount := 2000000
    lock := openLock }

theorem payable_openOutput :
    Payable [openOutput] := by
  constructor <;> decide

/- Until the first coinbase can be spent. -/
def openCalls : List Call :=
  lineCalls [openOutput] 21

/- The node once the output has matured. -/
def openState : ChainState :=
  run cheapEnv openCalls

/- Where the output is. -/
def openOutpoint : OutPoint :=
  { txid := (lineCoinbase [openOutput] 1).txid cheapCrypto
    index := 0 }

/- The coin there. -/
def openCoin : Coin :=
  { output := openOutput
    height := 1
    isCoinbase := true }

theorem openState_reached :
    openState.chain =
        ((List.range 22).map
          (lineHash [openOutput])).reverse ∧
      openState.utxo = lineCoins [openOutput] 21 :=
  line_reached payable_openOutput (by norm_num)

theorem openState_coin :
    openState.utxo openOutpoint = some openCoin := by
  have hAdded := addOutputs_line payable_openOutput 20
  rw [openState_reached.2]
  change Except.ok _ = Except.ok _ at hAdded
  rw [← Except.ok.inj hAdded]
  exact Function.update_self ..

------------------------------------------------------------
-- The Transaction That Spends It
------------------------------------------------------------

/- All of the coin is its fee. -/
def filler
    (count : Nat) : Transaction :=
  { version := 1
    inputs := [{ outpoint := openOutpoint, sequence := 0 }]
    outputs :=
      List.replicate count { amount := 0, lock := openLock }
    locktime := 0
    witnesses := [openWitness]
    coinbaseData := [] }

theorem filler_spending
    (count : Nat) :
    (filler count).isCoinbase = false :=
  Bool.and_false _

theorem length_filler
    (count : Nat) :
    (filler count).serializeWithoutWitnesses.length =
      (writeCompactSize count).length + 10 * count + 49 := by
  have hOutput :
      ∀ output ∈ (filler count).outputs,
        output.serialize.length = 10 := by
    intro output hOutput
    rw [List.eq_of_mem_replicate hOutput]
    rfl
  have hInput :
      ((filler count).inputs.flatMap
        TxInput.serialize).length = 40 := by
    simp [filler, TxInput.serialize, OutPoint.serialize,
      writeU32, writeHash256, Bytes32.size_eq,
      length_littleEndian]
  have hParts :
      (filler count).serializeWithoutWitnesses =
        writeU32 1 ++
          writeList TxInput.serialize
            (filler count).inputs ++
          writeList TxOutput.serialize
            (filler count).outputs ++
          writeU32 0 :=
    rfl
  have hCount : (filler count).outputs.length = count :=
    List.length_replicate
  rw [hParts]
  simp only [writeList, writeU32, length_littleEndian,
    List.length_append, hInput,
    length_flatMap_of_length hOutput, hCount]
  change 4 + (1 + 40) + (_ + 10 * count) + 4 = _
  omega

theorem filler_weight
    (count : Nat) :
    (filler count).weight =
      4 * ((writeCompactSize count).length + 10 * count) +
        201 := by
  have hBase := length_filler count
  have hWhole :
      (filler count).serialize.length =
        (filler count).serializeWithoutWitnesses.length +
          5 := by
    unfold Transaction.serialize
    rw [List.length_append, filler_spending]
    rfl
  unfold Transaction.weight witnessScaleFactor
  dsimp only
  omega

theorem filler_light
    {count : Nat}
    (hCount : count ≤ 49980) :
    (filler count).weight ≤ 1999413 := by
  have hLength : (writeCompactSize count).length ≤ 3 := by
    rw [length_writeCompactSize, compactSizeLen]
    split
    · decide
    · rw [if_pos (by omega)]
  rw [filler_weight]
  omega

theorem filler_shape
    {count : Nat}
    (hSome : 0 < count)
    (hCount : count ≤ 49980) :
    checkTransaction (filler count) regtestParams =
      .ok () := by
  have hOutputs : (filler count).outputs.length = count :=
    List.length_replicate
  have hLight := filler_light hCount
  refine checkTransaction_eq_ok.mpr
    ⟨List.cons_ne_nil _ _, ?_, ?_, ?_, ?_, ?_, ?_, ?_⟩
  · rw [← List.length_pos_iff, hOutputs]
    exact hSome
  · change 1 ≤ 12500
    decide
  · rw [hOutputs]
    change count ≤ 50000
    omega
  · rw [checkTransactionForm_eq_ok, filler_spending]
    refine ⟨nofun, fun _ => ⟨rfl, rfl, ?_⟩⟩
    intro input hInput
    rw [List.mem_singleton.mp hInput]
    exact filler_spending count
  · exact checkOutputAmounts_zeros (by decide) count
  · intro _
    refine ⟨List.nodup_singleton _, ?_⟩
    intro witness hWitness
    rw [List.mem_singleton.mp hWitness]
    rfl
  · change _ ≤ 2000000
    omega

theorem filler_inputs
    (count : Nat) :
    checkTransactionInputs cheapCrypto (filler count)
        [openCoin] 22 regtestParams =
      .ok 2000000 := by
  have hOut :
      sumAmounts 0
          ((filler count).outputs.map TxOutput.amount) =
        some 0 := by
    change sumAmounts 0
      ((List.replicate count _).map TxOutput.amount) = _
    rw [List.map_replicate]
    exact sumAmounts_zeros (by decide) count
  have hIn :
      sumAmounts 0
          ([openCoin].map fun coin => coin.output.amount) =
        some 2000000 := by
    decide
  refine checkTransactionInputs_open (filler_spending count)
    rfl rfl rfl rfl ?_
  unfold transactionFee
  rw [except_check_eq_ok, except_check_eq_ok,
    rejectIf_eq_ok, rejectIf_eq_ok]
  refine ⟨filler_spending count, rfl, ?_⟩
  rw [hIn, hOut]
  rfl

theorem filler_standing
    {count : Nat}
    (hSome : 0 < count)
    (hCount : count ≤ 49980) :
    Mempool.Standing cheapCrypto regtestParams (filler count)
      [openCoin] 22 2000000 := by
  have hLight := filler_light hCount
  have hWeight := filler_weight count
  refine ⟨filler_spending count, filler_shape hSome hCount,
    filler_inputs count, by omega, ?_, ?_⟩
  · unfold maxMempoolWeight
    omega
  · have hSmall :
        (Int64.ofNat (filler count).weight).toInt =
          (filler count).weight :=
      Int64.toInt_ofNat_of_lt (by omega)
    rw [show minRelayFeerate = 1 from rfl,
      Int64.mul_one, Int64.not_lt, Int64.le_iff_toInt_le,
      hSmall]
    change _ ≤ (2000000 : Int)
    omega

theorem filler_resolved
    (count : Nat)
    (pool : Mempool) :
    pool.resolveInputs (filler count) openState.utxo 22 =
      some [openCoin] := by
  have hInputs :
      (filler count).inputs =
        [{ outpoint := openOutpoint, sequence := 0 }] := rfl
  exact Mempool.resolveInputs_singleton hInputs openState_coin

------------------------------------------------------------
-- Ids
------------------------------------------------------------

/- An id copies so much of what it is the hash of. -/
theorem bytes_txid_cheap
    {tx : Transaction}
    (hLong : 45 ≤ tx.serializeWithoutWitnesses.length) :
    (tx.txid cheapCrypto).bytes.take 12 =
      tx.serializeWithoutWitnesses.take 8 ++
        (tx.serializeWithoutWitnesses.drop 41).take 4 := by
  have hLength :
      (tx.serializeWithoutWitnesses.take 8 ++
          (tx.serializeWithoutWitnesses.drop 41).take
            4).length = 12 := by
    rw [List.length_append, List.length_take,
      List.length_take, List.length_drop]
    omega
  rw [Transaction.txid, doubleSha256_cheap, cheapHash,
    if_neg (by omega), Bytes32.ofList]
  dsimp only
  rw [List.take_take, List.take_append_of_le_length
    (by rw [hLength]; decide), List.take_of_length_le
    (by rw [hLength]; decide)]

theorem take_filler
    (count : Nat) :
    (filler count).serializeWithoutWitnesses.take 8 =
      [1, 0, 0, 0, 1, 1, 0, 0] := by
  have hFront :
      (writeU32 1 ++
            writeList TxInput.serialize
              [{ outpoint := openOutpoint
                 sequence := 0 }]).take 8 =
          [1, 0, 0, 0, 1, 1, 0, 0] ∧
        8 ≤ (writeU32 1 ++
          writeList TxInput.serialize
            [{ outpoint := openOutpoint
               sequence := 0 }]).length := by
    decide +kernel
  have hParts :
      (filler count).serializeWithoutWitnesses =
        writeU32 1 ++
            writeList TxInput.serialize
              (filler count).inputs ++
          (writeList TxOutput.serialize
              (filler count).outputs ++
            writeU32 0) := by
    rw [← List.append_assoc]
    rfl
  rw [hParts]
  exact (List.take_append_of_le_length hFront.2).trans
    hFront.1

/- A coinbase has its height right behind the outpoint. -/
theorem take_coinbase
    {tx : Transaction}
    {height : UInt32}
    (hVersion : tx.version = 1)
    (hInputs : tx.inputs = [makeCoinbaseInput height]) :
    tx.serializeWithoutWitnesses.take 8 =
        [1, 0, 0, 0, 1, 0, 0, 0] ∧
      (tx.serializeWithoutWitnesses.drop 41).take 4 =
        writeU32 height ∧
      45 ≤ tx.serializeWithoutWitnesses.length := by
  have hParts :
      tx.serializeWithoutWitnesses =
        (writeU32 1 ++ writeCompactSize 1 ++
            writeHash256 Bytes32.zero ++
            writeU32 coinbaseOutpointIndex) ++
          (writeU32 height ++
            (writeList TxOutput.serialize tx.outputs ++
              writeU32 tx.locktime)) := by
    rw [Transaction.serializeWithoutWitnesses, hVersion,
      hInputs]
    simp only [writeList, List.flatMap_cons,
      List.flatMap_nil, List.append_nil, List.append_assoc,
      TxInput.serialize, OutPoint.serialize,
      makeCoinbaseInput, List.length_singleton]
  have hFront :
      (writeU32 1 ++ writeCompactSize 1 ++
            writeHash256 Bytes32.zero ++
            writeU32 coinbaseOutpointIndex).length =
          41 ∧
        (writeU32 1 ++ writeCompactSize 1 ++
            writeHash256 Bytes32.zero ++
            writeU32 coinbaseOutpointIndex).take 8 =
          [1, 0, 0, 0, 1, 0, 0, 0] := by
    decide
  have hHeight : (writeU32 height).length = 4 :=
    length_littleEndian 4 _
  rw [hParts]
  refine ⟨?_, ?_, ?_⟩
  · rw [List.take_append_of_le_length
      (by rw [hFront.1]; decide)]
    exact hFront.2
  · rw [List.drop_left' hFront.1, List.take_left' hHeight]
  · have hLength := hFront.1
    simp only [List.length_append, hHeight] at hLength ⊢
    omega

/- An id tells a beginning and a height. -/
theorem same_of_txid_cheap
    {tx other : Transaction}
    (hLong : 45 ≤ tx.serializeWithoutWitnesses.length)
    (hOther : 45 ≤ other.serializeWithoutWitnesses.length)
    (hSame : tx.txid cheapCrypto = other.txid cheapCrypto) :
    tx.serializeWithoutWitnesses.take 8 =
        other.serializeWithoutWitnesses.take 8 ∧
      (tx.serializeWithoutWitnesses.drop 41).take 4 =
        (other.serializeWithoutWitnesses.drop 41).take
          4 := by
  have hBytes := congrArg
    (fun id : Hash256 => id.bytes.take 12) hSame
  rw [bytes_txid_cheap hLong, bytes_txid_cheap hOther]
    at hBytes
  refine List.append_inj hBytes ?_
  rw [List.length_take, List.length_take]
  omega

theorem writeU32_injective
    {value other : UInt32}
    (hSame : writeU32 value = writeU32 other) :
    value = other := by
  have hValue := congrArg fromLittleEndian hSame
  rw [writeU32, writeU32, fromLittleEndian_littleEndian,
    fromLittleEndian_littleEndian] at hValue
  · exact UInt32.toNat_inj.mp hValue
  · exact other.toNat_lt
  · exact value.toNat_lt

theorem coinbase_txid_ne
    {tx : Transaction}
    {height : UInt32}
    (hVersion : tx.version = 1)
    (hInputs : tx.inputs = [makeCoinbaseInput height])
    (count : Nat) :
    tx.txid cheapCrypto ≠ (filler count).txid cheapCrypto := by
  rcases take_coinbase hVersion hInputs with
    ⟨hFront, -, hLong⟩
  intro hSame
  have hFiller := length_filler count
  have hBoth := (same_of_txid_cheap hLong (by omega)
    hSame).1
  rw [hFront, take_filler] at hBoth
  exact absurd hBoth (by decide)

/- One coinbase for each height, up to that of a template. -/
def coinbaseAt
    (last : Transaction)
    (height : Nat) : Transaction :=
  if height = 0 then
    buildGenesisCoinbase regtestParams
  else if height ≤ 21 then
    lineCoinbase [openOutput] height
  else
    last

theorem coinbaseAt_fields
    {last : Transaction}
    (hVersion : last.version = 1)
    (hInputs : last.inputs = [makeCoinbaseInput 22])
    {height : Nat}
    (hHeight : height ≤ 22) :
    (coinbaseAt last height).version = 1 ∧
      (coinbaseAt last height).inputs =
        [makeCoinbaseInput (UInt32.ofNat height)] := by
  unfold coinbaseAt
  split
  · rename_i hZero
    rw [hZero]
    exact ⟨rfl, rfl⟩
  split
  · exact ⟨rfl, rfl⟩
  · have hLast : height = 22 := by
      omega
    rw [hLast]
    exact ⟨hVersion, hInputs⟩

/- The transactions that the hash has to tell apart. -/
inductive Told
    (last : Transaction)
    (count : Nat) : Transaction → Prop where
  | coinbase
      {height : Nat}
      (hHeight : height ≤ 22) :
      Told last count (coinbaseAt last height)
  | filler :
      Told last count (filler count)

/- Their ids tell them apart. -/
theorem injOn_told
    {last : Transaction}
    (hVersion : last.version = 1)
    (hInputs : last.inputs = [makeCoinbaseInput 22])
    (count : Nat) :
    Set.InjOn cheapCrypto.doubleSha256
      (Transaction.serializeWithoutWitnesses ''
        {tx | Told last count tx}) := by
  rintro _ ⟨tx, hTx, rfl⟩ _ ⟨other, hOther, rfl⟩ hSame
  have hIds : tx.txid cheapCrypto = other.txid cheapCrypto :=
    hSame
  cases hTx with
  | filler =>
      cases hOther with
      | filler => rfl
      | coinbase hHeight =>
          rcases coinbaseAt_fields hVersion hInputs hHeight
            with ⟨hOne, hOnly⟩
          exact absurd hIds.symm
            (coinbase_txid_ne hOne hOnly count)
  | coinbase hHeight =>
      rcases coinbaseAt_fields hVersion hInputs hHeight
        with ⟨hOne, hOnly⟩
      cases hOther with
      | filler =>
          exact absurd hIds
            (coinbase_txid_ne hOne hOnly count)
      | coinbase hLower =>
          rcases coinbaseAt_fields hVersion hInputs hLower
            with ⟨hTwo, hSingle⟩
          rcases take_coinbase hOne hOnly with
            ⟨-, hHere, hLong⟩
          rcases take_coinbase hTwo hSingle with
            ⟨-, hThere, hLonger⟩
          have hTail := (same_of_txid_cheap hLong hLonger
            hIds).2
          rw [hHere, hThere] at hTail
          have hHeights := congrArg UInt32.toNat
            (writeU32_injective hTail)
          rw [UInt32.toNat_ofNat', UInt32.toNat_ofNat']
            at hHeights
          rw [Nat.mod_eq_of_lt (by omega),
            Nat.mod_eq_of_lt (by omega)] at hHeights
          rw [hHeights]

------------------------------------------------------------
-- The Pool
------------------------------------------------------------

/- One filler, at the height of the tip. -/
def fillerCalls
    (count : Nat) : List PoolCall :=
  [.accept (filler count) openState.utxo 22 0]

/- A pool with that filler alone. -/
def fillerPool
    (count : Nat) : Mempool :=
  Mempool.run cheapCrypto regtestParams (fillerCalls count)

section Pool

variable {count : Nat}

theorem fillerPool_holds
    (hSome : 0 < count)
    (hCount : count ≤ 49980) :
    Mempool.Holds cheapCrypto 0 [(filler count, 2000000)]
      (fillerPool count) := by
  refine Mempool.holds_run cheapCrypto regtestParams
    openState.utxo 22 0 [(filler count, 2000000)]
    (List.pairwise_singleton _ _) ?_ ?_
  · intro arrival hArrival
    rw [List.mem_singleton.mp hArrival]
    exact ⟨[openCoin], filler_resolved count,
      filler_standing hSome hCount⟩
  · have hLight := filler_light hCount
    rw [List.map_singleton, List.sum_singleton,
      maxMempoolWeight]
    dsimp only
    omega

theorem fillerPool_exact
    (count : Nat) :
    (fillerPool count).Exact cheapCrypto := by
  have hOffered :
      ∀ tx ∈ Mempool.offered (fillerCalls count),
        tx = filler count := by
    rintro tx ⟨call, hCall, hTx⟩
    rw [List.mem_singleton.mp hCall] at hTx
    exact (Option.some.inj hTx).symm
  refine Mempool.exact_of_orderly cheapCrypto regtestParams
    (fillerCalls count) ?_ ?_ (fillerCalls count)
    List.prefix_rfl
  · rintro _ ⟨tx, hTx, rfl⟩ _ ⟨other, hOther, rfl⟩ -
    rw [hOffered tx hTx, hOffered other hOther]
  · refine Mempool.OrderlyRun.append .nil ?_
    intro spent _ fee hFee
    refine ⟨?_, ?_, ?_⟩
    · intro input hInput
      rw [List.mem_singleton.mp hInput]
      exact coinbase_txid_ne rfl rfl count
    · intro id links hFound
      rw [show (Mempool.run cheapCrypto regtestParams
        []).entries.lookup id = none from
          AList.lookup_empty id] at hFound
      cases hFound
    · have hBound := ((isValidAmount_iff _).mp
        (transactionFee_valid
          (checkTransactionInputs_fee hFee))).2
      change (0 : Int) + fee.toInt < 2 ^ 63
      omega

theorem fillerPool_lookup
    (hSome : 0 < count)
    (hCount : count ≤ 49980)
    (id : Hash256)
    (links : EntryInternal) :
    (fillerPool count).entries.lookup id = some links ↔
      (filler count).wtxid cheapCrypto = id ∧
        Mempool.alone cheapCrypto 0
            (filler count, 2000000) =
          links := by
  rw [(fillerPool_holds hSome hCount).entries]
  exact ⟨fun ⟨_, hArrival, hBoth⟩ => by
    rw [List.mem_singleton.mp hArrival] at hBoth
    exact hBoth, fun hBoth =>
      ⟨_, List.mem_singleton_self _, hBoth⟩⟩

theorem fillerPool_validAt
    (hSome : 0 < count)
    (hCount : count ≤ 49980) :
    (fillerPool count).ValidAt cheapCrypto regtestParams
      openState.utxo 22 := by
  intro id links hFound
  rcases (fillerPool_lookup hSome hCount id links).mp hFound
    with ⟨-, rfl⟩
  exact ⟨filler_shape hSome hCount, [openCoin],
    filler_resolved count _, filler_inputs count⟩

theorem fillerPool_selection
    (hSome : 0 < count)
    (hCount : count ≤ 49980)
    {available : Nat}
    (hFits : (filler count).weight ≤ available) :
    (fillerPool count).getTemplates available =
      [Mempool.entryFor cheapCrypto (filler count) 2000000
        0] :=
  (fillerPool_holds hSome hCount).getTemplates_single hFits

end Pool

------------------------------------------------------------
-- The Tip
------------------------------------------------------------

theorem openState_sound :
    SoundState cheapEnv openState :=
  SoundState.run (fun _ _ _ => rfl) openCalls

theorem openState_line
    {link : Link}
    (hLink : link ∈ openState.index.tree) :
    ∃ place ≤ 21,
      link.header = lineHeader [openOutput] place :=
  mem_offeredHeaders_lineCalls
    ((Sourced.run cheapEnv openCalls).links link hLink)

theorem openState_tip :
    ∃ tip,
      openState.index.find openState.tip = some tip ∧
        tip.height = 21 := by
  have hSound := openState_sound
  rcases hSound.ok.ledger.tip_branch hSound.ok.index.tree
    openState.index.genesis with ⟨link, hLink, hHash, -⟩
  rcases List.mem_map.mp hLink with ⟨tip, hTip, rfl⟩
  have hTop :
      openState.chain.headD openState.index.genesis =
        lineHash [openOutput] 21 := by
    rw [openState_reached.1, List.range_succ,
      List.map_append, List.reverse_append,
      List.map_singleton, List.reverse_singleton,
      List.singleton_append, List.headD_cons]
  rcases hSound.ok.index.tree.header_of_mem hLink with
    ⟨hOwn, hHeight⟩
  have hSame := height_of_hash
    (hOwn.symm.trans (hHash.trans hTop))
  refine ⟨tip, ?_, ?_⟩
  · have hFound := hSound.ok.index.find_of_mem hTip
    rw [show tip.hash = openState.tip from hHash] at hFound
    exact hFound
  · exact hHeight.trans (hSame.trans
      (lineHeader_fields 21).1)

------------------------------------------------------------
-- The Template
------------------------------------------------------------

section Template

variable {count : Nat} {tip : Link}

theorem scheduledCoinbase_weight
    (hHeight : tip.height = 21) :
    (scheduledCoinbase tip openLock [] regtestParams).weight =
      241 := by
  rw [scheduledCoinbase, hHeight]
  rfl

theorem selectedEntries_filler
    (hSome : 0 < count)
    (hCount : count ≤ 49980)
    (hHeight : tip.height = 21) :
    selectedEntries tip openLock [] regtestParams
        (some (fillerPool count)) =
      [Mempool.entryFor cheapCrypto (filler count) 2000000
        0] := by
  have hLight := filler_light hCount
  unfold selectedEntries
  dsimp only
  rw [scheduledCoinbase_weight hHeight]
  apply fillerPool_selection hSome hCount
  change _ ≤ 2000000 - 241
  omega

/- What the header and the count leave for the filler. -/
theorem leavesRoom_filler
    (hSome : 0 < count)
    (hCount : count ≤ 49980)
    (hHeight : tip.height = 21) :
    LeavesRoom tip openLock [] regtestParams
        (some (fillerPool count)) ↔
      (filler count).weight ≤ 1999387 := by
  unfold LeavesRoom
  dsimp only
  rw [selectedEntries_filler hSome hCount hHeight,
    scheduledCoinbase_weight hHeight, List.map_singleton,
    List.sum_singleton]
  change (92 + 1) * 4 + (filler count).weight ≤
    2000000 - 241 ↔ _
  omega

/- The clock is past every timestamp of the line. -/
theorem openLine_inTime
    {line : List Link}
    (hLine :
      ∀ link ∈ line, ∃ place ≤ 21,
        link.header = lineHeader [openOutput] place) :
    InTime line lineClock where
  fits := by decide
  reaches := by
    have hMedian := median_line (by norm_num) hLine
    have hClock :
        lineClock.toInt =
          genesisTimestamp.toInt + 4294967296 := by
      decide
    have hAhead :
        maxFutureBlockSeconds.toInt = 3600 := by
      decide
    omega

theorem template_built
    (hSome : 0 < count)
    (hCount : count ≤ 49980)
    (hHeight : tip.height = 21)
    {line : List Link}
    (hLine :
      ∀ link ∈ line, ∃ place ≤ 21,
        link.header = lineHeader [openOutput] place) :
    ∃ assembled,
      buildBlockTemplate cheapCrypto tip line openLock
            lineClock [] regtestParams
            (some (fillerPool count)) =
          .ok assembled ∧
        compactToTarget assembled.block.header.targetBits =
          some assembled.target := by
  have hTop : tip.height ≠ 0xFFFFFFFF := by
    rw [hHeight]
    decide
  refine @exists_template _ .regtest _ _ _ _ _ _ hTop
    (Nat.zero_le _) ?_
  intro root
  rw [judgeTemplate_eq_ok]
  refine ⟨contextual_template hTop (openLine_inTime hLine)
    root, ?_⟩
  apply checkCoinbaseAmount_template
  · rw [hHeight]
    decide
  · apply selectedEntries_paid
    rintro held ⟨⟩
    exact Mempool.noDebts_run _ _ _
  · change _ + ((selectedEntries tip openLock []
      regtestParams (some (fillerPool count))).map
        fun entry => entry.fee.toInt).sum ≤ _
    rw [selectedEntries_filler hSome hCount hHeight, hHeight,
      List.map_singleton, List.sum_singleton]
    change _ + (2000000 : Int64).toInt ≤ _
    decide

/- All that was ever seen, and what the template adds. -/
theorem told_of_held
    {last tx : Transaction}
    (hTx : tx ∈ heldTransactions cheapEnv openState) :
    Told last count tx := by
  have hOffered := heldTransactions_run cheapEnv openCalls hTx
  rcases List.mem_flatMap.mp hOffered with
    ⟨block, hBlock, hMember⟩
  rcases List.mem_append.mp hBlock with hLine | hGenesis
  · rcases List.mem_filterMap.mp hLine with
      ⟨call, hCall, hSame⟩
    rcases List.mem_append.mp hCall with hOffer | hLast
    · rcases mem_offers hOffer with
        ⟨_, hOwn, place, rfl⟩
      rcases List.mem_map.mp hOwn with ⟨own, hRange, rfl⟩
      rw [List.mem_range'_1] at hRange
      cases hSame
      rw [List.mem_singleton.mp hMember]
      have hTold := @Told.coinbase last count own (by omega)
      rw [coinbaseAt, if_neg (by omega), if_pos (by omega)]
        at hTold
      exact hTold
    · rw [List.mem_singleton] at hLast
      subst hLast
      cases hSame
  · rw [List.mem_singleton.mp hGenesis] at hMember
    rw [List.mem_singleton.mp hMember]
    exact @Told.coinbase last count 0 (by omega)

theorem injOn_template
    (hSome : 0 < count)
    (hCount : count ≤ 49980)
    (hHeight : tip.height = 21)
    {line : List Link}
    {assembled : BlockTemplate}
    (hBuilt :
      buildBlockTemplate cheapCrypto tip line openLock
          lineClock [] regtestParams
          (some (fillerPool count)) =
        .ok assembled) :
    Set.InjOn cheapCrypto.doubleSha256
      (Transaction.serializeWithoutWitnesses ''
        (heldTransactions cheapEnv openState ∪
          {tx | tx ∈ assembled.block.transactions})) := by
  rcases buildBlockTemplate_eq_ok _ _ _ _ _ _ _ _ hBuilt with
    ⟨-, -, -, root, -, hBlock, -⟩
  let last :=
    coinbaseFor 22 openLock
      (templateReward tip openLock [] regtestParams
        (some (fillerPool count))) []
  apply (@injOn_told last rfl rfl count).mono
  apply Set.image_mono
  rintro tx (hHeld | hHere)
  · exact told_of_held hHeld
  have hTxs :
      assembled.block.transactions =
        [last, filler count] := by
    rw [hBlock]
    change templateTransactions tip openLock [] regtestParams
      (some (fillerPool count)) = _
    rw [templateTransactions,
      selectedEntries_filler hSome hCount hHeight, hHeight]
    rfl
  change tx ∈ assembled.block.transactions at hHere
  rw [hTxs, List.mem_cons, List.mem_singleton] at hHere
  rcases hHere with rfl | rfl
  · exact @Told.coinbase last count 22 (by omega)
  · exact .filler

/- Any nonce solves it. -/
theorem template_solved
    {line : List Link}
    {assembled : BlockTemplate}
    (hBuilt :
      buildBlockTemplate cheapCrypto tip line openLock
          lineClock [] regtestParams
          (some (fillerPool count)) =
        .ok assembled)
    (nonce : UInt64) :
    hashMeetsTarget
        ((assembled.solved nonce).header.hash cheapCrypto)
        assembled.target =
      true := by
  rcases buildBlockTemplate_eq_ok _ _ _ _ _ _ _ _ hBuilt with
    ⟨-, -, -, root, -, -, hTarget, -⟩
  rcases exists_regtestTarget with ⟨target, hBits, hTop⟩
  have hSame :
      templateBits tip line lineClock regtestParams =
        regtestPowLimitBits :=
    rfl
  rw [hSame, hBits, Option.getD_some] at hTarget
  rw [hTarget]
  exact meets_cheap _ hTop

end Template

/- The node at the tip, with a template from the pool. -/
theorem openState_template
    {count : Nat}
    (hSome : 0 < count)
    (hCount : count ≤ 49980) :
    ∃ tip assembled,
      openState.index.find openState.tip = some tip ∧
        tip.height = 21 ∧
        buildBlockTemplate cheapCrypto tip.toLink
            (openState.index.lineage tip.hash) openLock
            lineClock [] regtestParams
            (some (fillerPool count)) =
          .ok assembled := by
  rcases openState_tip with ⟨tip, hTip, hHeight⟩
  have hLine :
      ∀ link ∈ openState.index.lineage tip.hash,
        ∃ place ≤ 21,
          link.header = lineHeader [openOutput] place := by
    intro link hLink
    have hMember := Arrival.mem_of_mem_lineage hLink
    exact openState_line hMember
  rcases @template_built _ tip.toLink hSome hCount hHeight _
    hLine with ⟨assembled, hBuilt, -⟩
  exact ⟨tip, assembled, hTip, hHeight, hBuilt⟩

/- One output leaves room enough. -/
theorem template_accepted :
    ∃ tip assembled,
      openState.index.find openState.tip = some tip ∧
        buildBlockTemplate cheapCrypto tip.toLink
            (openState.index.lineage tip.hash) openLock
            lineClock [] regtestParams
            (some (fillerPool 1)) =
          .ok assembled ∧
        checkBlock cheapCrypto (assembled.solved 0)
            regtestParams = .ok () ∧
        ∃ result,
          (connectBlock cheapCrypto regtestParams
              (ChainDb.coinsView cheapEnv.plan)
              (assembled.solved 0) openState.coins
              openState.db).1.1 = .ok result := by
  rcases openState_template (show 0 < 1 by decide)
    (by decide) with
    ⟨tip, assembled, hTip, hHeight, hBuilt⟩
  have hNext : tip.height + 1 = 22 := by
    rw [hHeight]
    rfl
  have hRoom :
      LeavesRoom tip.toLink openLock [] regtestParams
        (some (fillerPool 1)) := by
    rw [leavesRoom_filler (by decide) (by decide) hHeight,
      filler_weight]
    decide
  have hAccepted := template_accepted_iff cheapEnv .regtest
    rfl (fun _ _ _ => rfl) openCalls
    (injOn_lineHeaders (by norm_num)) tip hTip openLock
    lineClock [] (fillerPool 1) (fillerPool_exact 1)
    (by
      rw [hNext]
      exact fillerPool_validAt (by decide) (by decide))
    assembled hBuilt
    (injOn_template (by decide) (by decide) hHeight hBuilt)
    0 (template_solved hBuilt 0)
  exact ⟨tip, assembled, hTip, hBuilt, hAccepted.mpr hRoom⟩

/-
  A filler that fits beside the coinbase alone makes a block
  that is too heavy, whatever nonce solves it.
-/
theorem template_overfull :
    ∃ tip assembled,
      openState.index.find openState.tip = some tip ∧
        (fillerPool 49980).Exact cheapCrypto ∧
        (fillerPool 49980).ValidAt cheapCrypto regtestParams
          openState.utxo (tip.height + 1) ∧
        buildBlockTemplate cheapCrypto tip.toLink
            (openState.index.lineage tip.hash) openLock
            lineClock [] regtestParams
            (some (fillerPool 49980)) =
          .ok assembled ∧
        ∀ nonce,
          hashMeetsTarget
                ((assembled.solved nonce).header.hash
                  cheapCrypto)
                assembled.target =
              true ∧
            checkBlock cheapCrypto (assembled.solved nonce)
                regtestParams ≠
              .ok () := by
  rcases openState_template (show 0 < 49980 by decide)
    (Nat.le_refl _) with
    ⟨tip, assembled, hTip, hHeight, hBuilt⟩
  have hNext : tip.height + 1 = 22 := by
    rw [hHeight]
    rfl
  have hExact := fillerPool_exact 49980
  have hValid :
      (fillerPool 49980).ValidAt cheapCrypto regtestParams
        openState.utxo (tip.height + 1) := by
    rw [hNext]
    exact fillerPool_validAt (by decide) (Nat.le_refl _)
  refine ⟨tip, assembled, hTip, hExact, hValid, hBuilt, ?_⟩
  intro nonce
  have hSolved := template_solved hBuilt nonce
  refine ⟨hSolved, ?_⟩
  have hCheck := @checkBlock_template_iff _ regtestParams _ _
    _ .regtest rfl _ _ _ _ _ _ hBuilt hExact hValid nonce
    hSolved
  rw [ne_eq, hCheck, leavesRoom_filler (by decide)
    (Nat.le_refl _) hHeight, filler_weight]
  decide

end Sample

end Amarian
