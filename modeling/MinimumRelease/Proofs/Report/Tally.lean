import Mathlib.Algebra.GroupWithZero.Nat
import Mathlib.Data.List.Basic
import MinimumRelease.Report.Batch

/-! # Tallies

A tally holds each key once, with its keys in ascending order, and counts how
often the key was added. `Tally.Counts` says so for the keys that were added so
far. From it follow the entries of the tally, their sum, and its last key. -/

namespace MinimumRelease.Tally

/-- A strict order in which any two keys compare. -/
structure Orders {κ : Type} (isBefore : κ → κ → Bool) : Prop where
  irrefl : ∀ k, isBefore k k = false
  trans : ∀ {a b c}, isBefore a b = true → isBefore b c = true → isBefore a c = true
  total : ∀ {a b}, a ≠ b → isBefore a b = false → isBefore b a = true

theorem orders_lt : Orders fun a b : Int => decide (a < b) where
  irrefl k := decide_eq_false (Int.lt_irrefl k)
  trans hab hbc := by simp only [decide_eq_true_eq] at *; omega
  total hne hab := by simp only [decide_eq_true_eq, decide_eq_false_iff_not] at *; omega

theorem orders_catalogBefore : Orders Feature.catalogBefore where
  irrefl f := decide_eq_false (Nat.lt_irrefl _)
  trans hab hbc := by simp only [Feature.catalogBefore, decide_eq_true_eq] at *; omega
  total {f g} hne hfg := by
    have hidx : Feature.all.idxOf f ≠ Feature.all.idxOf g := fun h =>
      hne ((List.idxOf_inj (Feature.mem_all f)).1 h)
    simp only [Feature.catalogBefore, decide_eq_true_eq, decide_eq_false_iff_not] at *
    omega

variable {κ : Type} {isBefore : κ → κ → Bool}

theorem getLast?_eq_some_iff_of_ascending (horder : Orders isBefore) {ks : List κ} {m : κ}
    (hasc : ks.Pairwise fun k k' => isBefore k k' = true) :
    ks.getLast? = some m ↔ m ∈ ks ∧ ∀ k ∈ ks, k = m ∨ isBefore k m = true := by
  rcases List.eq_nil_or_concat ks with rfl | ⟨front, last, rfl⟩
  · simp
  · rw [List.concat_eq_append] at hasc ⊢
    have hlast : ∀ k ∈ front, isBefore k last = true := fun k hk =>
      (List.pairwise_append.1 hasc).2.2 k hk last (List.mem_singleton_self _)
    rw [List.getLast?_concat, Option.some.injEq]
    constructor
    · rintro rfl
      refine ⟨by simp, fun k hk => ?_⟩
      rcases List.mem_append.1 hk with hk | hk
      · exact .inr (hlast k hk)
      · exact .inl (List.mem_singleton.1 hk)
    · rintro ⟨hm, hmax⟩
      rcases List.mem_append.1 hm with hm | hm
      · -- the last key would stand both before and behind `m`
        rcases hmax last (by simp) with rfl | hback
        · rfl
        · have hself := horder.trans (hlast m hm) hback
          rw [horder.irrefl] at hself
          cases hself
      · exact (List.mem_singleton.1 hm).symm

/-- The sum of all counts. -/
def total (t : Tally κ) : Nat := (t.map (·.2)).sum

@[simp] theorem total_nil : total ([] : Tally κ) = 0 := rfl

@[simp] theorem total_cons (p : κ × Nat) (t : Tally κ) : total (p :: t) = p.2 + total t :=
  List.sum_cons

variable [DecidableEq κ]

/-- The sum of the counts of one key. -/
def count (t : Tally κ) (k : κ) : Nat := total (t.filter (·.1 = k))

@[simp] theorem count_nil (k : κ) : count [] k = 0 := rfl

@[simp] theorem count_cons (p : κ × Nat) (t : Tally κ) (k : κ) :
    count (p :: t) k = (if p.1 = k then p.2 else 0) + count t k := by
  rw [count, List.filter_cons]
  split <;> simp_all [count]

/-! ## One more of a key -/

theorem total_add (key : κ) (t : Tally κ) : total (t.add isBefore key) = total t + 1 := by
  fun_induction Tally.add isBefore key t with
  | case1 => rfl
  | case2 n rest => simp only [total_cons]; omega
  | case3 => simp only [total_cons]; omega
  | case4 k n rest _ _ ih => simp only [total_cons, ih]; omega

theorem count_add (key k : κ) (t : Tally κ) :
    count (t.add isBefore key) k = count t k + if key = k then 1 else 0 := by
  fun_induction Tally.add isBefore key t with
  | case1 => simp only [count_cons, count_nil]; omega
  | case2 n rest => simp only [count_cons]; split <;> omega
  | case3 => simp only [count_cons]; omega
  | case4 k' n rest _ _ ih => simp only [count_cons, ih]; omega

theorem key_of_mem_add {key : κ} {t : Tally κ} {p : κ × Nat} (h : p ∈ t.add isBefore key) :
    p.1 = key ∨ p ∈ t := by
  fun_induction Tally.add isBefore key t with
  | case1 => exact .inl (by rw [List.mem_singleton.1 h])
  | case2 n rest =>
    rcases List.mem_cons.1 h with rfl | h
    · exact .inl rfl
    · exact .inr (List.mem_cons_of_mem _ h)
  | case3 k n rest =>
    rcases List.mem_cons.1 h with rfl | h
    · exact .inl rfl
    · exact .inr h
  | case4 k n rest _ _ ih =>
    rcases List.mem_cons.1 h with rfl | h
    · exact .inr List.mem_cons_self
    · exact (ih h).imp_right (List.mem_cons_of_mem _)

/-- Keys that ascend still do so with one key more. -/
theorem pairwise_add (horder : Orders isBefore) (key : κ) {t : Tally κ}
    (h : t.Pairwise fun p q => isBefore p.1 q.1 = true) :
    (t.add isBefore key).Pairwise fun p q => isBefore p.1 q.1 = true := by
  fun_induction Tally.add isBefore key t with
  | case1 => exact List.pairwise_singleton _ _
  | case2 n rest =>
    rw [List.pairwise_cons] at h ⊢
    exact h
  | case3 k n rest hne hbefore =>
    refine List.pairwise_cons.2 ⟨fun q hq => ?_, h⟩
    rcases List.mem_cons.1 hq with rfl | hq
    · exact hbefore
    · exact horder.trans hbefore ((List.pairwise_cons.1 h).1 q hq)
  | case4 k n rest hne hbefore ih =>
    obtain ⟨hk, hrest⟩ := List.pairwise_cons.1 h
    refine List.pairwise_cons.2 ⟨fun q hq => ?_, ih hrest⟩
    rcases key_of_mem_add hq with heq | hq
    · exact heq ▸ horder.total (Ne.symm hne) (eq_false_of_ne_true hbefore)
    · exact hk q hq

theorem pos_add (key : κ) {t : Tally κ} (h : ∀ p ∈ t, 0 < p.2) :
    ∀ p ∈ t.add isBefore key, 0 < p.2 := by
  fun_induction Tally.add isBefore key t with
  | case1 => simp
  | case2 n rest =>
    rw [List.forall_mem_cons] at h ⊢
    exact ⟨Nat.succ_pos n, h.2⟩
  | case3 k n rest => exact List.forall_mem_cons.2 ⟨Nat.one_pos, h⟩
  | case4 k n rest _ _ ih =>
    rw [List.forall_mem_cons] at h ⊢
    exact ⟨h.1, ih h.2⟩

/-! ## The entries of an ascending tally -/

theorem count_eq_zero {t : Tally κ} {k : κ} (h : ∀ p ∈ t, p.1 ≠ k) : count t k = 0 := by
  rw [count, List.filter_eq_nil_iff.2 fun p hp => by simpa using h p hp, total_nil]

theorem count_of_mem (horder : Orders isBefore) {t : Tally κ} {k : κ} {n : Nat}
    (hasc : t.Pairwise fun p q => isBefore p.1 q.1 = true) (h : (k, n) ∈ t) : count t k = n := by
  induction t with
  | nil => cases h
  | cons p t ih =>
    obtain ⟨hp, hasc⟩ := List.pairwise_cons.1 hasc
    have hne : ∀ q ∈ t, q.1 ≠ p.1 := fun q hq heq => by
      have hself := hp q hq
      rw [heq, horder.irrefl] at hself
      cases hself
    rcases List.mem_cons.1 h with rfl | h
    · rw [count_cons, if_pos rfl, count_eq_zero hne, Nat.add_zero]
    · rw [count_cons, if_neg (hne _ h).symm, ih hasc h, Nat.zero_add]

theorem exists_of_count_pos {t : Tally κ} {k : κ} (h : 0 < count t k) : ∃ n, (k, n) ∈ t := by
  by_contra hnone
  rw [count_eq_zero fun p hp heq => hnone ⟨p.2, heq ▸ hp⟩] at h
  exact Nat.lt_irrefl 0 h

/-! ## What was counted -/

/-- The tally counts the given keys, each as often as it occurs. -/
structure Counts (isBefore : κ → κ → Bool) (t : Tally κ) (keys : List κ) : Prop where
  ascending : t.Pairwise fun p q => isBefore p.1 q.1 = true
  positive : ∀ p ∈ t, 0 < p.2
  count_eq : ∀ k, t.count k = keys.count k
  total_eq : t.total = keys.length

namespace Counts

variable {t : Tally κ} {keys : List κ}

theorem nil : Counts isBefore [] ([] : List κ) :=
  ⟨.nil, fun _ h => absurd h List.not_mem_nil, fun _ => rfl, rfl⟩

theorem add (horder : Orders isBefore) (h : Counts isBefore t keys) (key : κ) :
    Counts isBefore (t.add isBefore key) (keys ++ [key]) where
  ascending := pairwise_add horder key h.ascending
  positive := pos_add key h.positive
  count_eq k := by
    rw [count_add, h.count_eq, List.count_append, List.count_singleton]
    simp only [beq_iff_eq]
  total_eq := by rw [total_add, h.total_eq, List.length_append, List.length_singleton]

theorem addAll (horder : Orders isBefore) (h : Counts isBefore t keys) (more : List κ) :
    Counts isBefore (more.foldl (fun t k => t.add isBefore k) t) (keys ++ more) := by
  induction more generalizing t keys with
  | nil => simpa using h
  | cons k more ih => simpa using ih (h.add horder k)

theorem mem_iff (horder : Orders isBefore) (h : Counts isBefore t keys) {k : κ} {n : Nat} :
    (k, n) ∈ t ↔ 0 < n ∧ keys.count k = n := by
  rw [← h.count_eq]
  constructor
  · exact fun hmem => ⟨h.positive _ hmem, count_of_mem horder h.ascending hmem⟩
  · rintro ⟨hpos, rfl⟩
    obtain ⟨n, hmem⟩ := exists_of_count_pos hpos
    rwa [count_of_mem horder h.ascending hmem]

theorem mem_keys_iff (horder : Orders isBefore) (h : Counts isBefore t keys) {k : κ} :
    k ∈ t.map (·.1) ↔ k ∈ keys := by
  rw [← List.count_pos_iff (l := keys), List.mem_map]
  constructor
  · rintro ⟨p, hp, rfl⟩
    obtain ⟨hpos, hcount⟩ := (h.mem_iff horder).1 hp
    exact hcount ▸ hpos
  · exact fun hpos => ⟨_, (h.mem_iff horder).2 ⟨hpos, rfl⟩, rfl⟩

/-- The last key is the greatest of those that were counted. -/
theorem last_iff (horder : Orders isBefore) (h : Counts isBefore t keys) {m : κ} :
    t.getLast?.map (·.1) = some m ↔ m ∈ keys ∧ ∀ k ∈ keys, k = m ∨ isBefore k m = true := by
  simp only [← h.mem_keys_iff horder, ← List.getLast?_map]
  exact getLast?_eq_some_iff_of_ascending horder (List.pairwise_map.2 h.ascending)

end Counts

end MinimumRelease.Tally
