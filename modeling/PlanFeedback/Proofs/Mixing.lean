import Mathlib.Logic.Function.Basic
import PlanFeedback.Proofs.Shape
import PlanFeedback.Proofs.Utf8
import PlanFeedback.Query.Fingerprint

/-!
The hash loses nothing that has reached its state. Each step can be undone, so different seeds give
different hashes of the same bytes, and so do bytes of one length that differ in a single word.
-/
namespace PlanFeedback.Hash.Murmur

open Text (Bytes utf8 collapse)

/-! Steps on words. -/

/-- The multiplier is odd and has an inverse modulo 2^32. -/
def inverse : UInt32 := 0xe59b19bd

theorem mul_multiplier_injective : Function.Injective fun h : UInt32 => h * multiplier := by
  have hcancel : Function.LeftInverse (fun h => h * inverse) fun h : UInt32 => h * multiplier := by
    intro h
    have hunit : multiplier * inverse = 1 := by decide
    simp only
    rw [UInt32.mul_assoc, hunit, UInt32.mul_one]
  exact hcancel.injective

/-- Bits are known from the highest downwards: each is xored with one above it. -/
theorem getLsbD_xorShift {width shift : Nat} (hshift : 0 < shift) {x y : BitVec width}
    (h : x ^^^ x >>> shift = y ^^^ y >>> shift) (n : Nat) :
    ∀ i, width ≤ i + n → x.getLsbD i = y.getLsbD i := by
  induction n with
  | zero =>
      intro i hi
      rw [BitVec.getLsbD_of_ge x i hi, BitVec.getLsbD_of_ge y i hi]
  | succ n ih =>
      intro i hi
      have habove : x.getLsbD (shift + i) = y.getLsbD (shift + i) := ih (shift + i) (by omega)
      have hbit := congrArg (fun z => z.getLsbD i) h
      simp only [BitVec.getLsbD_xor, BitVec.getLsbD_ushiftRight, habove] at hbit
      exact Bool.xor_left_inj.1 hbit

theorem xorShift_injective {shift : UInt32} (hshift : 0 < shift.toNat % 32) :
    Function.Injective fun h : UInt32 => h ^^^ h >>> shift := by
  intro x y heq
  have hwords := congrArg UInt32.toBitVec heq
  simp only [UInt32.toBitVec_xor, UInt32.toBitVec_shiftRight, BitVec.ushiftRight_eq',
    BitVec.toNat_umod] at hwords
  refine UInt32.toBitVec_inj.1 (BitVec.eq_of_getLsbD_eq fun i _ => ?_)
  exact getLsbD_xorShift hshift hwords 32 i (Nat.le_add_left 32 i)

theorem scramble_injective : Function.Injective scramble :=
  mul_multiplier_injective.comp
    ((xorShift_injective (by decide)).comp mul_multiplier_injective)

theorem finish_injective : Function.Injective finish :=
  (xorShift_injective (by decide)).comp
    (mul_multiplier_injective.comp (xorShift_injective (by decide)))

/-- The bytes of a word are read off from it. -/
theorem bytes_word (a b c d : UInt8) :
    (word a b c d).toUInt8 = a ∧ (word a b c d >>> 8).toUInt8 = b ∧
      (word a b c d >>> 16).toUInt8 = c ∧ (word a b c d >>> 24).toUInt8 = d := by
  have hout : ∀ (x : UInt8) (i : Nat), 8 ≤ i → x.toBitVec.getLsbD i = false :=
    fun x i hi => BitVec.getLsbD_of_ge x.toBitVec i hi
  simp only [← UInt8.toBitVec_inj, word]
  refine ⟨?_, ?_, ?_, ?_⟩
  · ext i hi
    simp
  -- a shift to the right leaves the bytes from its place on, of which eight bits are looked at
  all_goals
    ext i hi
    simp only [UInt32.toBitVec_toUInt8, UInt32.toBitVec_shiftRight, UInt32.toBitVec_or,
      UInt8.toBitVec_toUInt32, UInt32.toBitVec_shiftLeft, UInt32.toBitVec_ofNat,
      BitVec.ofNat_eq_ofNat, BitVec.reduceMod, BitVec.shiftLeft_eq', BitVec.toNat_ofNat,
      Nat.reducePow, Nat.reduceMod, BitVec.ushiftRight_eq', BitVec.getElem_setWidth,
      BitVec.getLsbD_ushiftRight, BitVec.getLsbD_or, BitVec.getLsbD_setWidth,
      BitVec.getLsbD_shiftLeft, Nat.add_sub_cancel_left]
    grind

theorem word_inj {a b c d a' b' c' d' : UInt8} (h : word a b c d = word a' b' c' d') :
    a = a' ∧ b = b' ∧ c = c' ∧ d = d' := by
  obtain ⟨ha, hb, hc, hd⟩ := bytes_word a b c d
  obtain ⟨ha', hb', hc', hd'⟩ := bytes_word a' b' c' d'
  rw [h] at ha hb hc hd
  exact ⟨ha.symm.trans ha', hb.symm.trans hb', hc.symm.trans hc', hd.symm.trans hd'⟩

/-! The state. -/

theorem absorb_injective (k : UInt32) : Function.Injective fun h => absorb h k := by
  intro h h' heq
  exact mul_multiplier_injective ((UInt32.xor_left_inj _).1 heq)

theorem absorb_inj_word {h k k' : UInt32} (heq : absorb h k = absorb h k') : k = k' :=
  scramble_injective ((UInt32.xor_right_inj _).1 heq)

theorem absorbTail_injective (tail : Bytes) : Function.Injective fun h => absorbTail h tail := by
  have hmix : ∀ k, Function.Injective fun h : UInt32 => (h ^^^ k) * multiplier := by
    intro k h h' heq
    exact (UInt32.xor_left_inj _).1 (mul_multiplier_injective heq)
  match tail with
  | [] => exact Function.injective_id
  | [a] => exact hmix _
  | [a, b] => exact hmix _
  | a :: b :: c :: _ => exact hmix _

theorem absorbTail_inj_tail {h : UInt32} {xs ys : Bytes} (hlen : xs.length = ys.length)
    (hshort : xs.length < 4) (heq : absorbTail h xs = absorbTail h ys) : xs = ys := by
  have hmix : ∀ {k k' : UInt32}, (h ^^^ k) * multiplier = (h ^^^ k') * multiplier → k = k' :=
    fun heq => (UInt32.xor_right_inj _).1 (mul_multiplier_injective heq)
  match xs, ys with
  | [], [] => rfl
  | [a], [a'] =>
      obtain ⟨rfl, -⟩ := word_inj (hmix heq)
      rfl
  | [a, b], [a', b'] =>
      obtain ⟨rfl, rfl, -⟩ := word_inj (hmix heq)
      rfl
  | [a, b, c], [a', b', c'] =>
      obtain ⟨rfl, rfl, rfl, -⟩ := word_inj (hmix heq)
      rfl

theorem absorbAll_injective (data : Bytes) : Function.Injective fun h => absorbAll h data := by
  intro h h' heq
  induction h, data using absorbAll.induct generalizing h' with
  | case1 h a b c d rest ih =>
      simp only [absorbAll] at heq
      exact absorb_injective _ (ih heq)
  | case2 h tail hshort =>
      simp only [absorbAll] at heq
      exact absorbTail_injective tail heq

/-! Texts that differ in a word. -/

/-- The texts have one length and agree at all positions outside one word. Words are counted from
the start, and what is left at the end is the last of them. -/
def AgreeOutside (k : Nat) (xs ys : Bytes) : Prop :=
  xs.length = ys.length ∧ ∀ i, i / 4 ≠ k → xs[i]? = ys[i]?

instance (k : Nat) (xs ys : Bytes) : Decidable (AgreeOutside k xs ys) :=
  decidable_of_iff (xs.length = ys.length ∧ ∀ i < xs.length, i / 4 ≠ k → xs[i]? = ys[i]?) <| by
    refine and_congr_right fun hlen => ⟨fun h i hi => ?_, fun h i _ => h i⟩
    rcases Nat.lt_or_ge i xs.length with hlt | hge
    · exact h i hlt hi
    · rw [List.getElem?_eq_none hge, List.getElem?_eq_none (hlen ▸ hge)]

theorem AgreeOutside.drop {k : Nat} {a b c d a' b' c' d' : UInt8} {xs ys : Bytes}
    (h : AgreeOutside (k + 1) (a :: b :: c :: d :: xs) (a' :: b' :: c' :: d' :: ys)) :
    (a = a' ∧ b = b' ∧ c = c' ∧ d = d') ∧ AgreeOutside k xs ys := by
  obtain ⟨hlen, hplace⟩ := h
  refine ⟨⟨?_, ?_, ?_, ?_⟩, by simpa using hlen, fun i hi => ?_⟩
  · exact Option.some.inj (hplace 0 (by omega))
  · exact Option.some.inj (hplace 1 (by omega))
  · exact Option.some.inj (hplace 2 (by omega))
  · exact Option.some.inj (hplace 3 (by omega))
  · exact hplace (i + 4) (by omega)

theorem AgreeOutside.drop_zero {a b c d a' b' c' d' : UInt8} {xs ys : Bytes}
    (h : AgreeOutside 0 (a :: b :: c :: d :: xs) (a' :: b' :: c' :: d' :: ys)) : xs = ys :=
  List.ext_getElem? fun i => h.2 (i + 4) (by omega)

theorem absorbAll_short (h : UInt32) {tail : Bytes} (hshort : tail.length < 4) :
    absorbAll h tail = absorbTail h tail := by
  match tail, hshort with
  | [], _ | [_], _ | [_, _], _ | [_, _, _], _ => rfl

theorem length_lt_of_tail {tail : Bytes}
    (htail : ∀ a b c d rest, tail = a :: b :: c :: d :: rest → False) : tail.length < 4 := by
  match tail, htail with
  | [], _ | [_], _ | [_, _], _ | [_, _, _], _ => simp
  | a :: b :: c :: d :: rest, htail => exact (htail a b c d rest rfl).elim

/-- What enters the state in one word stays in it: the words before are the same, and those after
undo nothing. -/
theorem absorbAll_inj {k : Nat} {xs ys : Bytes} (hagree : AgreeOutside k xs ys) {h : UInt32}
    (heq : absorbAll h xs = absorbAll h ys) : xs = ys := by
  induction h, xs using absorbAll.induct generalizing k ys with
  | case1 h a b c d xs ih =>
      obtain ⟨a', b', c', d', ys, rfl⟩ : ∃ a' b' c' d' ys', ys = a' :: b' :: c' :: d' :: ys' := by
        match ys, hagree.1 with
        | a' :: b' :: c' :: d' :: ys, _ => exact ⟨a', b', c', d', ys, rfl⟩
      simp only [absorbAll] at heq
      cases k with
      | zero =>
          obtain rfl := hagree.drop_zero
          obtain ⟨rfl, rfl, rfl, rfl⟩ := word_inj (absorb_inj_word (absorbAll_injective xs heq))
          rfl
      | succ k =>
          obtain ⟨⟨rfl, rfl, rfl, rfl⟩, hrest⟩ := hagree.drop
          rw [ih hrest heq]
  | case2 h tail htail =>
      have hshort := length_lt_of_tail htail
      rw [absorbAll_short h hshort, absorbAll_short h (hagree.1 ▸ hshort)] at heq
      exact absorbTail_inj_tail hagree.1 hshort heq

/-! Hashes. -/

theorem hash_injective_seed (data : Bytes) : Function.Injective fun seed => hash seed data := by
  intro seed seed' heq
  exact (UInt32.xor_left_inj _).1 (absorbAll_injective data (finish_injective heq))

theorem hash_inj {k : Nat} {xs ys : Bytes} (hagree : AgreeOutside k xs ys) {seed : UInt32}
    (heq : hash seed xs = hash seed ys) : xs = ys := by
  have hstate := finish_injective heq
  rw [hagree.1] at hstate
  exact absorbAll_inj hagree hstate

/-! Ids. -/

theorem textId_inj {k : Nat} {s t : String} (hagree : AgreeOutside k (utf8 s) (utf8 t))
    (heq : textId s = textId t) : s = t :=
  Text.utf8_injective (hash_inj hagree heq)

theorem planId_inj {k : Nat} {table table' : Plan.RangeTable} {p p' : Plan} {x x' : String}
    (h : Advice.shapeText table p = .ok x) (h' : Advice.shapeText table' p' = .ok x')
    (hagree : AgreeOutside k (utf8 x) (utf8 x'))
    (heq : Advice.planId table p = Advice.planId table' p') : x = x' := by
  obtain ⟨s, hs, rfl⟩ := Advice.shapeText_eq_ok h
  obtain ⟨s', hs', rfl⟩ := Advice.shapeText_eq_ok h'
  rw [Advice.planId, Advice.planId, hs, hs'] at heq
  exact textId_inj hagree (Except.ok.inj heq)

/-- Under no two seeds has a text one hash, and under one seed no two texts of one length that differ
in a single word have. So ids are different if the layout-free texts of the queries, or the documents
of the plans, have one length and differ in a single word. -/
theorem hash_loses_nothing (k : Nat) :
    (∀ data, Function.Injective fun seed => hash seed data) ∧
    (∀ seed xs ys, AgreeOutside k xs ys → xs ≠ ys → hash seed xs ≠ hash seed ys) ∧
    (∀ n n', AgreeOutside k (utf8 (collapse n)) (utf8 (collapse n')) → collapse n ≠ collapse n' →
      Query.queryId n ≠ Query.queryId n') ∧
    ∀ table table' p p' x x', Advice.shapeText table p = .ok x →
      Advice.shapeText table' p' = .ok x' → AgreeOutside k (utf8 x) (utf8 x') → x ≠ x' →
      Advice.planId table p ≠ Advice.planId table' p' := by
  refine ⟨hash_injective_seed, ?data, ?query, ?plan⟩
  case data =>
    intro seed xs ys hagree hne heq
    exact hne (hash_inj hagree heq)
  case query =>
    intro n n' hagree hne heq
    exact hne (textId_inj hagree heq)
  case plan =>
    intro table table' p p' x x' h h' hagree hne heq
    exact hne (planId_inj h h' hagree heq)

/-- Two seeds, and tails of three bytes that differ in the first two. -/
theorem hash_loses_nothing_tail :
    AgreeOutside 2 (utf8 "SELECT ?, ?") (utf8 "SELECT ?+1?") ∧
      utf8 "SELECT ?, ?" ≠ utf8 "SELECT ?+1?" ∧
      hash 7 (utf8 "SELECT ?, ?") ≠ hash 7 (utf8 "SELECT ?+1?") ∧
      hash 7 (utf8 "SELECT ?") ≠ hash 8 (utf8 "SELECT ?") := by
  have hagree : AgreeOutside 2 (utf8 "SELECT ?, ?") (utf8 "SELECT ?+1?") := by decide
  have hne : utf8 "SELECT ?, ?" ≠ utf8 "SELECT ?+1?" := by decide
  obtain ⟨hseed, hdata, -⟩ := hash_loses_nothing 2
  exact ⟨hagree, hne, hdata 7 _ _ hagree hne, (hseed _).ne (by decide)⟩

end PlanFeedback.Hash.Murmur
