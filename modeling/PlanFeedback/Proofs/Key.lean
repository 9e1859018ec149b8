import Mathlib.Algebra.Group.Nat.Defs
import PlanFeedback.Proofs.Utf8
import PlanFeedback.Store.Key

/-!
The keys of the tables. They lie in the order of the ids in them, and the keys of one query or of one
pair of a query and a client are no keys of another.
-/
namespace PlanFeedback.Store

open Text (Bytes utf8 utf8_injective)

/-! Bytes in their order. -/

theorem lt_append_of_lt {x y : Bytes} (u v : Bytes) (hlen : x.length = y.length) (h : x < y) :
    x ++ u < y ++ v := by
  induction x generalizing y with
  | nil =>
      cases y with
      | nil => exact absurd h (List.lt_irrefl [])
      | cons b y => cases hlen
  | cons a x ih =>
      cases y with
      | nil => cases hlen
      | cons b y =>
          rw [List.cons_append, List.cons_append, List.cons_lt_cons_iff]
          rcases List.cons_lt_cons_iff.1 h with hab | ⟨rfl, hxy⟩
          · exact Or.inl hab
          · exact Or.inr ⟨rfl, ih (Nat.succ.inj hlen) hxy⟩

theorem prefix_of_between {p a b k : Bytes} (hle : p ++ a ≤ k) (hge : k ≤ p ++ b) :
    ∃ c, k = p ++ c := by
  induction p generalizing k with
  | nil => exact ⟨k, rfl⟩
  | cons d p ih =>
      cases k with
      | nil => exact absurd (List.le_nil.1 hle) (List.cons_ne_nil d (p ++ a))
      | cons e k =>
          rw [List.cons_append, List.cons_le_cons_iff] at hle hge
          have hed : e = d := by
            rcases hle with h1 | ⟨h1, -⟩
            · rcases hge with h2 | ⟨h2, -⟩
              · exact absurd h2 (UInt8.lt_asymm h1)
              · exact h2
            · exact h1.symm
          subst hed
          have hle' : p ++ a ≤ k := hle.elim (fun h => absurd h (UInt8.lt_irrefl e)) And.right
          have hge' : k ≤ p ++ b := hge.elim (fun h => absurd h (UInt8.lt_irrefl e)) And.right
          obtain ⟨c, rfl⟩ := ih hle' hge'
          exact ⟨c, rfl⟩

/-! Numbers. -/

theorem length_bigEndian (width n : Nat) : (bigEndian width n).length = width := by
  induction width generalizing n with
  | zero => rfl
  | succ width ih => rw [bigEndian, List.length_append, ih, List.length_singleton]

theorem ofBigEndian_append (bytes : Bytes) (b : UInt8) :
    ofBigEndian (bytes ++ [b]) = 256 * ofBigEndian bytes + b.toNat := by
  simp only [ofBigEndian, List.foldl_append, List.foldl_cons, List.foldl_nil]

theorem ofBigEndian_bigEndian {width n : Nat} (h : n < 256 ^ width) :
    ofBigEndian (bigEndian width n) = n := by
  induction width generalizing n with
  | zero =>
      obtain rfl : n = 0 := by simpa using h
      rfl
  | succ width ih =>
      have hdiv : n / 256 < 256 ^ width := by
        rw [Nat.pow_succ] at h
        exact Nat.div_lt_of_lt_mul (by omega)
      rw [bigEndian, ofBigEndian_append, ih hdiv, UInt8.toNat_ofNat']
      omega

/-- Numbers of one width lie in the order of their bytes. -/
theorem bigEndian_lt {width n m : Nat} (hnm : n < m) (hm : m < 256 ^ width) :
    bigEndian width n < bigEndian width m := by
  induction width generalizing n m with
  | zero =>
      rw [Nat.pow_zero] at hm
      omega
  | succ width ih =>
      rw [bigEndian, bigEndian]
      by_cases hdiv : n / 256 < m / 256
      · have hm' : m / 256 < 256 ^ width := by
          rw [Nat.pow_succ] at hm
          exact Nat.div_lt_of_lt_mul (by omega)
        exact lt_append_of_lt _ _ (by rw [length_bigEndian, length_bigEndian]) (ih hdiv hm')
      · have heq : n / 256 = m / 256 := by omega
        rw [heq]
        refine List.append_left_lt (List.cons_lt_cons_iff.2 (Or.inl ?_))
        rw [UInt8.lt_iff_toNat_lt, UInt8.toNat_ofNat', UInt8.toNat_ofNat']
        omega

theorem length_wordBytes (n : Nat) : (wordBytes n).length = 8 := length_bigEndian 8 n

theorem ofBigEndian_wordBytes {n : Nat} (h : n < 0x10000000000000000) :
    ofBigEndian (wordBytes n) = n := ofBigEndian_bigEndian h

theorem wordBytes_lt {n m : Nat} (hnm : n < m) (hm : m < 0x10000000000000000) :
    wordBytes n < wordBytes m := bigEndian_lt hnm hm

theorem wordBytes_le {n m : Nat} (hnm : n ≤ m) (hm : m < 0x10000000000000000) :
    wordBytes n ≤ wordBytes m := by
  rcases Nat.lt_or_eq_of_le hnm with hlt | rfl
  · exact List.le_of_lt (wordBytes_lt hlt hm)
  · exact List.le_refl _

theorem wordBytes_inj {n m : Nat} (hn : n < 0x10000000000000000) (hm : m < 0x10000000000000000)
    (h : wordBytes n = wordBytes m) : n = m := by
  rw [← ofBigEndian_wordBytes hn, h, ofBigEndian_wordBytes hm]

/-! Text keys. -/

theorem slash_of_mem_utf8 {s : String} (h : 0x2F ∈ utf8 s) : '/' ∈ s.toList := by
  obtain ⟨c, hc, hb⟩ := List.mem_flatMap.1 h
  obtain rfl : '/' = c := Text.ofNat_of_mem_encodeChar hb (by decide)
  exact hc

theorem cut_at_slash {x y u v : Bytes} (hx : 0x2F ∉ x) (hy : 0x2F ∉ y)
    (h : x ++ 0x2F :: u = y ++ 0x2F :: v) : x = y ∧ u = v := by
  induction x generalizing y with
  | nil =>
      cases y with
      | nil => exact ⟨rfl, (List.cons.inj h).2⟩
      | cons b y =>
          have hb := (List.cons.inj h).1
          exact absurd (hb ▸ List.mem_cons_self) hy
  | cons a x ih =>
      cases y with
      | nil =>
          have ha := (List.cons.inj h).1
          exact absurd (ha ▸ List.mem_cons_self) hx
      | cons b y =>
          rw [List.cons_append, List.cons_append] at h
          obtain ⟨rfl, htail⟩ := List.cons.inj h
          obtain ⟨rfl, rfl⟩ := ih (fun hm => hx (List.mem_cons_of_mem a hm))
            (fun hm => hy (List.mem_cons_of_mem a hm)) htail
          exact ⟨rfl, rfl⟩

theorem textKey_eq (queryKey : String) (id : Nat) :
    textKey queryKey id = utf8 queryKey ++ [0x2F] ++ wordBytes id := by
  rw [textKey, List.append_assoc, List.singleton_append]

theorem textKey_lt (queryKey : String) {i j : Nat} (hij : i < j) (hj : j < 0x10000000000000000) :
    textKey queryKey i < textKey queryKey j := by
  rw [textKey_eq, textKey_eq]
  exact List.append_left_lt (wordBytes_lt hij hj)

/-- The id takes the last eight bytes, so that slashes in a query or in an id do no harm. -/
theorem textKey_inj {q q' : String} {i j : Nat} (hi : i < 0x10000000000000000)
    (hj : j < 0x10000000000000000) (h : textKey q i = textKey q' j) : q = q' ∧ i = j := by
  rw [textKey_eq, textKey_eq] at h
  obtain ⟨hslash, hid⟩ := List.append_inj' h (by rw [length_wordBytes, length_wordBytes])
  exact ⟨utf8_injective (List.append_inj' hslash rfl).1, wordBytes_inj hi hj hid⟩

/-- Of the keys of two queries of one length, or of two without slashes, the range of the one query
holds its own. -/
theorem textKey_mem_range {q q' : String} {i : Nat}
    (h : (utf8 q).length = (utf8 q').length ∨ '/' ∉ q.toList ∧ '/' ∉ q'.toList)
    (hi : i < 0x10000000000000000) :
    (textKeyRange q).1 ≤ textKey q' i ∧ textKey q' i ≤ (textKeyRange q).2 ↔ q' = q := by
  constructor
  · rintro ⟨hle, hge⟩
    simp only [textKeyRange, textKey_eq q] at hle hge
    obtain ⟨c, hc⟩ := prefix_of_between hle hge
    rw [List.append_assoc, List.singleton_append] at hc
    apply utf8_injective
    rcases h with hlen | ⟨hq, hq'⟩
    · exact (List.append_inj hc hlen.symm).1
    · exact (cut_at_slash (mt slash_of_mem_utf8 hq') (mt slash_of_mem_utf8 hq) hc).1
  · rintro rfl
    simp only [textKeyRange, textKey_eq]
    exact ⟨List.append_left_le (wordBytes_le (Nat.zero_le i) hi),
      List.append_left_le (wordBytes_le (by omega) (by omega))⟩

/-! Hint keys. -/

theorem hintKey_inj {n c n' c' : String} (hn : (utf8 n).length < 0x10000000000000000)
    (hn' : (utf8 n').length < 0x10000000000000000) (h : hintKey n c = hintKey n' c') :
    n = n' ∧ c = c' := by
  simp only [hintKey, List.append_assoc] at h
  obtain ⟨h1, h2⟩ := List.append_inj h (by rw [length_wordBytes, length_wordBytes])
  obtain ⟨h3, h4⟩ := List.append_inj h2 (wordBytes_inj hn hn' h1)
  exact ⟨utf8_injective h3, utf8_injective h4⟩

/-! All keys. -/

/-- A key tells what it was made of, texts as long as their lengths have 64 bits; keys with an id lie
in the order of the ids; and of two queries that are equally long or have no slash, the range of the
one holds no key of the other. -/
theorem keys_separate {n c n' c' a b : String} {i j : UInt64}
    (hn : (utf8 n).length < 0x10000000000000000) (hn' : (utf8 n').length < 0x10000000000000000) :
    (hintKey n c = hintKey n' c' → n = n' ∧ c = c') ∧
    (textKey a i.toNat = textKey b j.toNat → a = b ∧ i = j) ∧
    (i < j → historyKey i.toNat < historyKey j.toNat ∧ textKey a i.toNat < textKey a j.toNat) ∧
    ((utf8 a).length = (utf8 b).length ∨ '/' ∉ a.toList ∧ '/' ∉ b.toList →
      ((textKeyRange a).1 ≤ textKey b i.toNat ∧ textKey b i.toNat ≤ (textKeyRange a).2 ↔ a = b)) := by
  have hi : i.toNat < 0x10000000000000000 := i.toNat_lt
  have hj : j.toNat < 0x10000000000000000 := j.toNat_lt
  refine ⟨hintKey_inj hn hn', ?_, ?_, ?_⟩
  · intro h
    obtain ⟨hq, hid⟩ := textKey_inj hi hj h
    exact ⟨hq, UInt64.toNat_inj.1 hid⟩
  · intro hij
    have hlt : i.toNat < j.toNat := UInt64.lt_iff_toNat_lt.1 hij
    exact ⟨wordBytes_lt hlt hj, textKey_lt a hlt hj⟩
  · intro h
    rw [textKey_mem_range h hi]
    exact eq_comm

/-- Texts that run into each other, slashes in queries and in ids, and the greatest ids. -/
theorem keys_separate_slashes :
    ((utf8 "ab").length < 0x10000000000000000 ∧ (utf8 "a").length < 0x10000000000000000 ∧
      (0x2F2F2F2F2F2F2F2F : UInt64) < 0xFFFFFFFFFFFFFFFF ∧
      (utf8 "q/é").length = (utf8 "q//!").length) ∧
    hintKey "ab" "c" ≠ hintKey "a" "bc" ∧
    textKey "q/é" 0x2F2F2F2F2F2F2F2F ≠ textKey "q//!" 0xFFFFFFFFFFFFFFFF ∧
    historyKey 0x2F2F2F2F2F2F2F2F < historyKey 0xFFFFFFFFFFFFFFFF ∧
    textKey "q/é" 0x2F2F2F2F2F2F2F2F < textKey "q/é" 0xFFFFFFFFFFFFFFFF ∧
    ¬ ((textKeyRange "q/é").1 ≤ textKey "q//!" 0x2F2F2F2F2F2F2F2F ∧
      textKey "q//!" 0x2F2F2F2F2F2F2F2F ≤ (textKeyRange "q/é").2) := by
  have hn : (utf8 "ab").length < 0x10000000000000000 := by decide +kernel
  have hn' : (utf8 "a").length < 0x10000000000000000 := by decide +kernel
  have hij : (0x2F2F2F2F2F2F2F2F : UInt64) < 0xFFFFFFFFFFFFFFFF := by decide
  have hlen : (utf8 "q/é").length = (utf8 "q//!").length := by decide +kernel
  obtain ⟨hhint, htext, hlt, hrange⟩ := @keys_separate "ab" "c" "a" "bc" "q/é" "q//!"
    0x2F2F2F2F2F2F2F2F 0xFFFFFFFFFFFFFFFF hn hn'
  refine ⟨⟨hn, hn', hij, hlen⟩, ?_, ?_, (hlt hij).1, (hlt hij).2, ?_⟩
  · intro h
    exact absurd (hhint h).1 (by decide)
  · intro h
    exact absurd (htext h).1 (by decide)
  · intro h
    exact absurd ((hrange (Or.inl hlen)).1 h) (by decide)

/-- A slash in a query of another length puts its keys among those of the query before the slash. -/
example : (textKeyRange "q").1 ≤ textKey "q/1" 7 ∧ textKey "q/1" 7 ≤ (textKeyRange "q").2 := by
  decide +kernel

end PlanFeedback.Store
