import Amarian.Lib.Except
import Amarian.Utxo.Ledger

/-
  Coin sets that no rule can tell apart.

  The height of a coin that is not a coinbase's is read by
  no rule, so two sets that differ in such heights alone
  accept the same blocks.  The results here hold for every
  relation between equality and that one.

  Key definitions include:
    * `Coin.alike`
    * `Likeness`
    * `Utxo.Like`
    * `BlockUndo.Like`

  Key theorems include:
    * `Utxo.connectBlock_like`
    * `Utxo.disconnectBlock_like`
-/

------------------------------------------------------------
-- Likeness
------------------------------------------------------------

namespace Amarian

/- Two coins that every rule treats in the same way. -/
def Coin.alike
    (first second : Coin) : Prop :=
  first.output = second.output ∧
    first.isCoinbase = second.isCoinbase ∧
    (first.isCoinbase = true →
      first.height = second.height)

/- A relation on coins that the rules cannot see through. -/
structure Likeness
    (rel : Coin → Coin → Prop) : Prop where
  refl : ∀ coin, rel coin coin
  alike : ∀ first second, rel first second →
    first.alike second

theorem Likeness.eq :
    Likeness Eq where
  refl := fun _ => rfl
  alike := by
    rintro first _ rfl
    exact ⟨rfl, rfl, fun _ => rfl⟩

theorem Likeness.coin :
    Likeness Coin.alike where
  refl := fun _ => ⟨rfl, rfl, fun _ => rfl⟩
  alike := fun _ _ hAlike => hAlike

/- The same outpoints, with coins that are alike. -/
def Utxo.Like
    (rel : Coin → Coin → Prop)
    (first second : Utxo) : Prop :=
  ∀ outpoint,
    Option.Rel rel (first outpoint) (second outpoint)

/- Coin by coin. -/
def TxUndo.Like
    (rel : Coin → Coin → Prop)
    (first second : TxUndo) : Prop :=
  List.Forall₂ rel first.spent second.spent

/- Transaction by transaction. -/
def BlockUndo.Like
    (rel : Coin → Coin → Prop)
    (first second : BlockUndo) : Prop :=
  List.Forall₂ (TxUndo.Like rel) first.transactions
    second.transactions

theorem Utxo.like_eq
    {first second : Utxo} :
    Utxo.Like Eq first second ↔ first = second := by
  constructor
  · intro hLike
    funext outpoint
    have hHere := hLike outpoint
    generalize first outpoint = found at hHere
    generalize second outpoint = other at hHere
    cases hHere with
    | none => rfl
    | some hCoin => rw [hCoin]
  · rintro rfl outpoint
    cases first outpoint with
    | none => exact .none
    | some coin => exact .some rfl

theorem TxUndo.like_eq
    {first second : TxUndo} :
    TxUndo.Like Eq first second ↔ first = second := by
  rw [TxUndo.Like, List.forall₂_eq_eq_eq, TxUndo.mk.injEq]

theorem BlockUndo.like_eq
    {first second : BlockUndo} :
    BlockUndo.Like Eq first second ↔ first = second := by
  have hSame : TxUndo.Like Eq = Eq := by
    funext first second
    exact propext TxUndo.like_eq
  rw [BlockUndo.Like, hSame, List.forall₂_eq_eq_eq,
    BlockUndo.mk.injEq]

------------------------------------------------------------
-- Connecting
------------------------------------------------------------

section Respects

variable {rel : Coin → Coin → Prop}

namespace Utxo

theorem Like.update
    {first second : Utxo}
    (hLike : Like rel first second)
    (outpoint : OutPoint)
    {found other : Option Coin}
    (hCoins : Option.Rel rel found other) :
    Like rel (Function.update first outpoint found)
      (Function.update second outpoint other) := by
  intro wanted
  by_cases hSame : wanted = outpoint
  · subst hSame
    simpa only [Function.update_self] using hCoins
  · simpa only [Function.update_of_ne hSame] using
      hLike wanted

theorem Like.spend
    {first second : Utxo}
    (hLike : Like rel first second)
    (outpoint : OutPoint) :
    Option.Rel
      (fun left right =>
        rel left.1 right.1 ∧ Like rel left.2 right.2)
      (first.spend outpoint) (second.spend outpoint) := by
  have hHere := hLike outpoint
  unfold Utxo.spend
  generalize first outpoint = found at hHere
  generalize second outpoint = other at hHere
  cases hHere with
  | none => exact .none
  | some hCoin =>
      exact .some ⟨hCoin, hLike.update outpoint .none⟩

theorem Like.add
    {first second : Utxo}
    (hLike : Like rel first second)
    (outpoint : OutPoint)
    {coin other : Coin}
    (hCoin : rel coin other) :
    Option.Rel (Like rel) (first.add outpoint coin)
      (second.add outpoint other) := by
  have hHere := hLike outpoint
  unfold Utxo.add
  generalize first outpoint = found at hHere
  generalize second outpoint = occupant at hHere
  cases hHere with
  | none => exact .some (hLike.update outpoint (.some hCoin))
  | some _ => exact .none

theorem spendInputs_like
    (inputs : List TxInput)
    {first second : Utxo}
    (hLike : Like rel first second) :
    ExceptRel
      (fun left right =>
        List.Forall₂ rel left.1 right.1 ∧
          Like rel left.2 right.2)
      (spendInputs inputs first)
      (spendInputs inputs second) := by
  induction inputs generalizing first second with
  | nil => exact .ok ⟨.nil, hLike⟩
  | cons input inputs ih =>
      have hSpend := hLike.spend input.outpoint
      unfold spendInputs
      generalize first.spend input.outpoint = found at hSpend
      generalize second.spend input.outpoint = other
        at hSpend
      cases hSpend with
      | none => exact .error _
      | some hSpent =>
          refine (ih hSpent.2).bind ?_
          intro left right hRest
          exact .ok ⟨.cons hSpent.1 hRest.1, hRest.2⟩

theorem addOutputs_like
    (hRel : Likeness rel)
    (txid : Hash256)
    (height : UInt32)
    (isCoinbase : Bool)
    (index : Nat)
    (outputs : List TxOutput)
    {first second : Utxo}
    (hLike : Like rel first second) :
    ExceptRel (Like rel)
      (addOutputs txid height isCoinbase index outputs first)
      (addOutputs txid height isCoinbase index outputs
        second) := by
  induction outputs generalizing index first second with
  | nil => exact .ok hLike
  | cons output outputs ih =>
      unfold addOutputs
      split
      case isFalse => exact ih (index + 1) hLike
      case isTrue =>
        have hAdd := hLike.add (outPointFor txid index)
          (hRel.refl { output, height, isCoinbase })
        generalize first.add (outPointFor txid index)
          { output, height, isCoinbase } = found at hAdd
        generalize second.add (outPointFor txid index)
          { output, height, isCoinbase } = other at hAdd
        cases hAdd with
        | none => exact .error _
        | some hNext => exact ih (index + 1) hNext

end Utxo

/- The rules for inputs read nothing that may differ. -/
theorem authoriseInputs_like
    (hRel : Likeness rel)
    (c : Crypto)
    (params : ChainParams)
    (tx : Transaction)
    (midstates : SigHashMidstates)
    (index : Nat)
    {spent other : List Coin}
    (hSpent : List.Forall₂ rel spent other)
    (witnesses : List Witness) :
    authoriseInputs c params tx midstates index spent
        witnesses =
      authoriseInputs c params tx midstates index other
        witnesses := by
  induction hSpent generalizing index witnesses with
  | nil => rfl
  | cons hCoin hRest ih =>
      cases witnesses with
      | nil => rfl
      | cons witness witnesses =>
          rw [authoriseInputs, authoriseInputs,
            (hRel.alike _ _ hCoin).1, ih]

theorem checkTransactionInputs_like
    (hRel : Likeness rel)
    (c : Crypto)
    (tx : Transaction)
    (height : UInt32)
    (params : ChainParams)
    {spent other : List Coin}
    (hSpent : List.Forall₂ rel spent other) :
    checkTransactionInputs c tx spent height params =
      checkTransactionInputs c tx other height params := by
  have hLength := hSpent.length_eq
  have hAmounts :
      spent.map (fun coin => coin.output.amount) =
        other.map fun coin => coin.output.amount := by
    induction hSpent with
    | nil => rfl
    | cons hCoin hRest ih =>
        rw [List.map_cons, List.map_cons,
          (hRel.alike _ _ hCoin).1, ih hRest.length_eq]
  have hImmature :
      spent.any (isImmature params height) =
        other.any (isImmature params height) := by
    clear hAmounts
    induction hSpent with
    | nil => rfl
    | @cons coin found rest others hCoin hRest ih =>
        rcases hRel.alike _ _ hCoin with ⟨-, hCoinbase, hHeight⟩
        have hSame :
            isImmature params height coin =
              isImmature params height found := by
          unfold isImmature
          cases hKind : coin.isCoinbase with
          | false => simp [← hCoinbase, hKind]
          | true =>
              rw [← hCoinbase, hKind, hHeight hKind]
        rw [List.any_cons, List.any_cons, hSame,
          ih hRest.length_eq]
  unfold checkTransactionInputs transactionFee
    checkSpendAuthorisation
  rw [hLength, hAmounts, hImmature,
    authoriseInputs_like hRel c params tx _ 0 hSpent]

namespace Utxo

variable (c : Crypto) (params : ChainParams)

theorem connectSpends_like
    (hRel : Likeness rel)
    (height : UInt32)
    (txs : List Transaction)
    (fees : Int64)
    {first second : Utxo}
    (hLike : Like rel first second) :
    ExceptRel
      (fun left right =>
        List.Forall₂ (TxUndo.Like rel) left.1 right.1 ∧
          left.2.1 = right.2.1 ∧
          Like rel left.2.2 right.2.2)
      (connectSpends c params height txs fees first)
      (connectSpends c params height txs fees second) := by
  induction txs generalizing fees first second with
  | nil => exact .ok ⟨.nil, rfl, hLike⟩
  | cons tx txs ih =>
      unfold connectSpends
      refine (ExceptRel.refl _).bind ?_
      rintro _ _ rfl
      refine (spendInputs_like tx.inputs hLike).bind ?_
      rintro ⟨spent, left⟩ ⟨other, right⟩ ⟨hSpent, hLike⟩
      simp only
      rw [checkTransactionInputs_like hRel c tx height params
        hSpent]
      refine (ExceptRel.refl _).bind ?_
      rintro fee _ rfl
      refine (ExceptRel.refl _).bind ?_
      rintro fees _ rfl
      refine (addOutputs_like hRel _ _ _ _ _ hLike).bind ?_
      intro left right hLike
      refine (ih fees hLike).bind ?_
      rintro ⟨undo, total, left⟩ ⟨undo', _, right⟩
        ⟨hUndo, rfl, hLike⟩
      exact .ok ⟨.cons hSpent hUndo, rfl, hLike⟩

/- Like sets accept the same blocks, with like undos. -/
theorem connectBlock_like
    (hRel : Likeness rel)
    (block : Block)
    {first second : Utxo}
    (hLike : Like rel first second) :
    ExceptRel
      (fun left right =>
        BlockUndo.Like rel left.1.undo right.1.undo ∧
          Like rel left.2 right.2)
      (connectBlock c params block first)
      (connectBlock c params block second) := by
  unfold connectBlock connectCoinbase
  cases block.transactions with
  | nil => exact .error _
  | cons coinbase txs =>
      simp only
      refine (ExceptRel.refl _).bind ?_
      rintro _ _ rfl
      refine ((ExceptRel.refl _).bind fun _ _ _ =>
        addOutputs_like hRel _ _ _ _ _ hLike).bind ?_
      intro left right hLike
      refine (connectSpends_like c params hRel _ txs 0
        hLike).bind ?_
      rintro ⟨undo, total, left⟩ ⟨undo', _, right⟩
        ⟨hUndo, rfl, hLike⟩
      refine (ExceptRel.refl _).bind ?_
      intro _ _ _
      exact .ok ⟨hUndo, hLike⟩

------------------------------------------------------------
-- Disconnecting
------------------------------------------------------------

/-
  Here like sets may part: a coin to be removed is compared
  whole, its height included.  What can be said is that two
  reversals that both go through end in like sets.
-/
theorem removeOutputs_like
    {txid : Hash256}
    {height : UInt32}
    {isCoinbase : Bool}
    {index : Nat}
    {outputs : List TxOutput}
    {first second after later : Utxo}
    (hLike : Like rel first second)
    (hFirst :
      removeOutputs txid height isCoinbase index outputs
        first = .ok after)
    (hSecond :
      removeOutputs txid height isCoinbase index outputs
        second = .ok later) :
    Like rel after later := by
  induction outputs generalizing index first second with
  | nil =>
      cases hFirst
      cases hSecond
      exact hLike
  | cons output outputs ih =>
      unfold removeOutputs at hFirst hSecond
      split at hFirst
      case isFalse hSkipped =>
        rw [if_neg hSkipped] at hSecond
        exact ih hLike hFirst hSecond
      case isTrue hStored =>
        rw [if_pos hStored] at hSecond
        have hSpend := hLike.spend (outPointFor txid index)
        generalize first.spend (outPointFor txid index) =
          found at hSpend hFirst
        generalize second.spend (outPointFor txid index) =
          other at hSpend hSecond
        cases hSpend with
        | none => cases hFirst
        | @some left right hSpent =>
            rcases left with ⟨coin, left⟩
            rcases right with ⟨other, right⟩
            simp only at hFirst hSecond
            split at hFirst
            case isFalse => cases hFirst
            case isTrue =>
              split at hSecond
              case isFalse => cases hSecond
              case isTrue => exact ih hSpent.2 hFirst hSecond

theorem restoreInputs_like
    {pairs others : List (TxInput × Coin)}
    {first second after later : Utxo}
    (hPairs :
      List.Forall₂
        (fun left right =>
          left.1 = right.1 ∧ rel left.2 right.2)
        pairs others)
    (hLike : Like rel first second)
    (hFirst : restoreInputs pairs first = .ok after)
    (hSecond : restoreInputs others second = .ok later) :
    Like rel after later := by
  induction hPairs generalizing after later with
  | nil =>
      cases hFirst
      cases hSecond
      exact hLike
  | @cons left right pairs others hPair hRest ih =>
      rcases left with ⟨input, coin⟩
      rcases right with ⟨_, other⟩
      rcases hPair with ⟨rfl, hCoin⟩
      unfold restoreInputs at hFirst hSecond
      rw [except_bind_eq_ok] at hFirst hSecond
      rcases hFirst with ⟨left, hLeft, hFirst⟩
      rcases hSecond with ⟨right, hRight, hSecond⟩
      have hAdd := (ih hLeft hRight).add input.outpoint hCoin
      generalize left.add input.outpoint coin = found
        at hAdd hFirst
      generalize right.add input.outpoint other = filled
        at hAdd hSecond
      cases hAdd with
      | none => cases hFirst
      | some hNext =>
          cases hFirst
          cases hSecond
          exact hNext

/- Pairing like lists with one list gives like pairs. -/
theorem forall₂_zip
    {α β γ : Type}
    {like : β → γ → Prop}
    (items : List α)
    {left : List β}
    {right : List γ}
    (hLike : List.Forall₂ like left right) :
    List.Forall₂
      (fun first second =>
        first.1 = second.1 ∧ like first.2 second.2)
      (items.zip left) (items.zip right) := by
  induction hLike generalizing items with
  | nil =>
      rw [List.zip_nil_right, List.zip_nil_right]
      exact .nil
  | cons hHead hTail ih =>
      cases items with
      | nil => exact .nil
      | cons item items => exact .cons ⟨rfl, hHead⟩ (ih items)

theorem disconnectSpends_like
    {height : UInt32}
    {pairs others : List (Transaction × TxUndo)}
    {first second after later : Utxo}
    (hPairs :
      List.Forall₂
        (fun left right =>
          left.1 = right.1 ∧ TxUndo.Like rel left.2 right.2)
        pairs others)
    (hLike : Like rel first second)
    (hFirst :
      disconnectSpends c height pairs first = .ok after)
    (hSecond :
      disconnectSpends c height others second = .ok later) :
    Like rel after later := by
  induction hPairs generalizing after later with
  | nil =>
      cases hFirst
      cases hSecond
      exact hLike
  | @cons left right pairs others hPair hRest ih =>
      rcases left with ⟨tx, undo⟩
      rcases right with ⟨_, other⟩
      rcases hPair with ⟨rfl, hUndo⟩
      unfold disconnectSpends at hFirst hSecond
      simp only [except_bind_eq_ok] at hFirst hSecond
      rcases hFirst with ⟨left, hLeft, left', hLeft', hFirst⟩
      rcases hSecond with
        ⟨right, hRight, right', hRight', hSecond⟩
      have hMiddle := removeOutputs_like (ih hLeft hRight)
        hLeft' hRight'
      split at hFirst
      case isFalse => cases hFirst
      case isTrue =>
        split at hSecond
        case isFalse => cases hSecond
        case isTrue =>
          exact restoreInputs_like
            (forall₂_zip tx.inputs hUndo) hMiddle hFirst
            hSecond

theorem disconnectBlock_like
    {block : Block}
    {undo other : BlockUndo}
    {first second after later : Utxo}
    (hUndo : BlockUndo.Like rel undo other)
    (hLike : Like rel first second)
    (hFirst :
      disconnectBlock c block undo first = .ok after)
    (hSecond :
      disconnectBlock c block other second = .ok later) :
    Like rel after later := by
  unfold disconnectBlock at hFirst hSecond
  cases hTxs : block.transactions with
  | nil => simp [hTxs] at hFirst
  | cons coinbase txs =>
      simp only [hTxs] at hFirst hSecond
      split at hFirst
      case isFalse => cases hFirst
      case isTrue =>
        split at hSecond
        case isFalse => cases hSecond
        case isTrue =>
          rw [except_bind_eq_ok] at hFirst hSecond
          rcases hFirst with ⟨left, hLeft, hFirst⟩
          rcases hSecond with ⟨right, hRight, hSecond⟩
          exact removeOutputs_like
            (disconnectSpends_like c
              (forall₂_zip txs hUndo) hLike hLeft hRight)
            hFirst hSecond

end Utxo

end Respects

end Amarian
