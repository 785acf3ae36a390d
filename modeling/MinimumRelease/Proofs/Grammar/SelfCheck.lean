import MinimumRelease.Proofs.Grammar.Monotone

/-! # What the check of profiles reports

A profile is built from constructs in any order and with repetitions, or by
relaxing another one. Either way its rejections ascend in declaration order
(`Profile.Built.ascending`), so a search by halving finds what it rejects, and
the first construct that a list may not refuse is the smallest one. The check
looks at neighbours from the old end. It accepts a list exactly if every profile
relaxes all earlier ones, and otherwise it describes the first pair of
neighbours that does not (`Refused`). -/

namespace MinimumRelease

/-! ## Declaration order -/

namespace Construct

/-- Position in declaration order. -/
def index (c : Construct) : Nat := c.ctorIdx

theorem index_injective {c d : Construct} (h : c.index = d.index) : c = d := by
  have hc : ofNat c.index = c := by cases c <;> rfl
  have hd : ofNat d.index = d := by cases d <;> rfl
  rw [← hc, h, hd]

theorem pairwise_all : all.Pairwise (·.index < ·.index) := by decide

theorem least_of_find? {cs : List Construct} (hcs : cs.Pairwise (·.index < ·.index))
    {p : Construct → Bool} {c : Construct} (h : cs.find? p = some c) :
    ∀ d ∈ cs, p d = true → c.index ≤ d.index := by
  obtain ⟨-, front, back, hsplit, hfront⟩ := List.find?_eq_some_iff_append.1 h
  intro d hd hp
  rw [hsplit, List.pairwise_append, List.pairwise_cons] at hcs
  rw [hsplit, List.mem_append, List.mem_cons] at hd
  rcases hd with hd | rfl | hd
  · -- nothing passes before `c`
    have hnot := hfront d hd
    rw [hp] at hnot
    cases hnot
  · exact Nat.le_refl _
  · exact Nat.le_of_lt (hcs.2.1.1 d hd)

/-- In a list in declaration order a search finds the first construct in that order. -/
theorem find?_eq_some_iff_least {cs : List Construct} (hcs : cs.Pairwise (·.index < ·.index))
    {p : Construct → Bool} {c : Construct} : cs.find? p = some c ↔
      c ∈ cs ∧ p c = true ∧ ∀ d ∈ cs, p d = true → c.index ≤ d.index := by
  constructor
  · intro h
    exact ⟨List.mem_of_find?_eq_some h, List.find?_some h, least_of_find? hcs h⟩
  · intro h
    obtain ⟨hc, hp, hleast⟩ := h
    cases hfind : cs.find? p with
    | none => exact absurd hp (List.find?_eq_none.1 hfind c hc)
    | some d =>
      have hd := List.find?_some hfind
      have hindex := Nat.le_antisymm (least_of_find? hcs hfind c hc hp)
        (hleast d (List.mem_of_find?_eq_some hfind) hd)
      rw [index_injective hindex]

end Construct

/-! ## Search by halving -/

section Halving

variable {α : Type} {key : α → Nat} {as : Array α}

/-- The keys of the elements ascend. -/
def KeysAscend (key : α → Nat) (as : Array α) : Prop :=
  ∀ i j (_ : i < as.size) (_ : j < as.size), i < j → key as[i] < key as[j]

theorem KeysAscend.lt_of_key_lt (h : KeysAscend key as) {i j : Nat} (hi : i < as.size)
    (hj : j < as.size) (hlt : key as[i] < key as[j]) : i < j := by
  rcases Nat.lt_trichotomy i j with hij | rfl | hij
  · exact hij
  · exact absurd hlt (Nat.lt_irrefl _)
  · exact absurd (h j i hj hi hij) (Nat.lt_asymm hlt)

/-- Each halving keeps every place where the element may stand. -/
theorem KeysAscend.binSearchAux_iff (h : KeysAscend key as)
    (hkey : ∀ a b, key a = key b → a = b) {k : α} {lo : Fin (as.size + 1)} {hi : Fin as.size}
    (hle : lo.1 ≤ hi.1) :
    Array.binSearchAux (fun a b => decide (key a < key b)) Option.isSome as k lo hi hle = true ↔
      ∃ i, ∃ _ : i < as.size, lo.1 ≤ i ∧ i ≤ hi.1 ∧ as[i] = k := by
  fun_induction Array.binSearchAux with
  | case1 lo hi _ m a hlt hnext _ ih =>
    rw [decide_eq_true_eq] at hlt
    rw [ih]
    constructor
    · intro hfound
      obtain ⟨i, hi, hm, hle, hk⟩ := hfound
      have hm : m + 1 ≤ i := hm
      exact ⟨i, hi, by omega, hle, hk⟩
    · intro hfound
      obtain ⟨i, hi, hlo, hle, rfl⟩ := hfound
      have hmi : m < i := h.lt_of_key_lt (by omega) hi hlt
      exact ⟨i, hi, hmi, hle, rfl⟩
  | case2 lo hi _ m a hlt hstop _ =>
    rw [decide_eq_true_eq] at hlt
    simp only [Option.isSome_none, Bool.false_eq_true, false_iff]
    intro hfound
    obtain ⟨i, hi, hlo, hle, rfl⟩ := hfound
    have hmi : m < i := h.lt_of_key_lt (by omega) hi hlt
    omega
  | case3 lo hi _ m a _ hlt hstop _ =>
    rw [decide_eq_true_eq] at hlt
    simp only [Option.isSome_none, Bool.false_eq_true, false_iff]
    intro hfound
    obtain ⟨i, hi, hlo, hle, rfl⟩ := hfound
    have him : i < m := h.lt_of_key_lt hi (by omega) hlt
    omega
  | case4 lo hi _ m a _ hlt hgo _ ih =>
    rw [decide_eq_true_eq] at hlt
    rw [ih]
    constructor
    · intro hfound
      obtain ⟨i, hi, hlo, hle, hk⟩ := hfound
      have hle : i ≤ m - 1 := hle
      exact ⟨i, hi, hlo, by omega, hk⟩
    · intro hfound
      obtain ⟨i, hi, hlo, hle, rfl⟩ := hfound
      have him : i < m := h.lt_of_key_lt hi (by omega) hlt
      exact ⟨i, hi, hlo, Nat.le_sub_one_of_lt him, rfl⟩
  | case5 lo hi _ m a hna hnk _ =>
    rw [decide_eq_true_eq] at hna hnk
    simp only [Option.isSome_some, true_iff]
    exact ⟨m, by omega, by omega, by omega,
      hkey _ _ (Nat.le_antisymm (Nat.not_lt.1 hnk) (Nat.not_lt.1 hna))⟩

theorem KeysAscend.binSearchContains_iff (h : KeysAscend key as)
    (hkey : ∀ a b, key a = key b → a = b) {k : α} :
    as.binSearchContains k (fun a b => decide (key a < key b)) = true ↔ k ∈ as := by
  rw [Array.mem_iff_getElem, Array.binSearchContains]
  split
  · next hpos =>
    have hlast : as.size - 1 < as.size := by omega
    simp only [hlast, if_true, Nat.zero_le, dite_true]
    rw [h.binSearchAux_iff hkey]
    constructor
    · intro hfound
      obtain ⟨i, hi, -, -, hk⟩ := hfound
      exact ⟨i, hi, hk⟩
    · intro hfound
      obtain ⟨i, hi, hk⟩ := hfound
      exact ⟨i, hi, Nat.zero_le _, Nat.le_sub_one_of_lt hi, hk⟩
  · next hempty =>
    simp only [Bool.false_eq_true, false_iff]
    intro hfound
    obtain ⟨i, hi, -⟩ := hfound
    omega

end Halving

/-! ## How profiles are built -/

namespace Profile

/-- Profiles that are built from a list of constructs, and those relaxed from them. -/
inductive Built : Profile → Prop
  | ofList (release : Int) (given : List Construct) : Built (.ofList release given)
  | relaxed {p : Profile} (h : Built p) (release : Int) (allow : Construct → Bool) :
      Built (p.relaxed release allow)

theorem mem_rejections_ofList {release : Int} {given : List Construct} {c : Construct} :
    c ∈ (ofList release given).rejections ↔ c ∈ given := by
  simp [ofList, Construct.mem_all]

theorem mem_rejections_relaxed {p : Profile} {release : Int} {allow : Construct → Bool}
    {c : Construct} :
    c ∈ (p.relaxed release allow).rejections ↔ c ∈ p.rejections ∧ allow c = false := by
  simp [relaxed]

theorem rejects_iff {p : Profile} {c : Construct} : p.rejects c = true ↔ c ∈ p.rejections :=
  List.contains_iff_mem

theorem Built.ascending {p : Profile} (h : p.Built) :
    p.rejections.Pairwise (·.index < ·.index) := by
  induction h with
  | ofList release given => exact Construct.pairwise_all.filter (· ∈ given)
  | relaxed _ release allow ih => exact ih.filter (!allow ·)

theorem Built.binSearchContains_iff {p : Profile} (h : p.Built) {c : Construct} :
    p.rejections.toArray.binSearchContains c (fun a b => decide (a.index < b.index)) = true ↔
      c ∈ p.rejections := by
  have hkeys : KeysAscend Construct.index p.rejections.toArray := fun i j hi hj hij =>
    List.pairwise_iff_getElem.1 h.ascending i j hi hj hij
  rw [hkeys.binSearchContains_iff fun a b => Construct.index_injective]
  exact List.mem_toArray

/-- `q` refuses a construct that its predecessor `p` accepts. -/
def Offends (p q : Profile) (c : Construct) : Prop := c ∈ q.rejections ∧ c ∉ p.rejections

/-- Of the constructs that `q` may not refuse the first in declaration order. -/
structure FirstOffence (p q : Profile) (c : Construct) : Prop where
  offends : p.Offends q c
  least : ∀ d, p.Offends q d → c.index ≤ d.index

theorem not_rejects_iff {p : Profile} {c : Construct} :
    (!p.rejects c) = true ↔ c ∉ p.rejections := by
  rw [Bool.not_eq_true', ← Bool.not_eq_true, rejects_iff]

theorem find?_eq_some_iff_firstOffence {p q : Profile} (hq : q.Built) {c : Construct} :
    q.rejections.find? (!p.rejects ·) = some c ↔ p.FirstOffence q c := by
  rw [Construct.find?_eq_some_iff_least hq.ascending]
  simp only [not_rejects_iff]
  constructor
  · intro h
    obtain ⟨hc, hnot, hleast⟩ := h
    exact ⟨⟨hc, hnot⟩, fun d hd => hleast d hd.1 hd.2⟩
  · intro h
    exact ⟨h.offends.1, h.offends.2, fun d hd hnot => h.least d ⟨hd, hnot⟩⟩

end Profile

/-! ## The first fault -/

namespace Profiles

/-- What is wrong with a pair of neighbours. The order of releases comes first. -/
inductive PairFault (p q : Profile) : ProfileError → Prop
  | notAscending : q.release ≤ p.release → PairFault p q (.notAscending p.release q.release)
  | notMonotonic {c : Construct} : p.release < q.release → p.FirstOffence q c →
      PairFault p q (.notMonotonic p.release q.release c)

theorem stepFault?_eq_some_iff {p q : Profile} (hq : q.Built) {e : ProfileError} :
    stepFault? p q = some e ↔ PairFault p q e := by
  unfold stepFault?
  split
  · next hle =>
    constructor
    · intro h
      cases h
      exact .notAscending hle
    · intro h
      cases h with
      | notAscending => rfl
      | notMonotonic hlt => omega
  · next hlt =>
    rw [Option.map_eq_some_iff]
    simp only [Profile.find?_eq_some_iff_firstOffence hq]
    constructor
    · intro h
      obtain ⟨c, hc, rfl⟩ := h
      exact .notMonotonic (Int.not_le.1 hlt) hc
    · intro h
      cases h with
      | notAscending hle => exact absurd hle hlt
      | @notMonotonic c _ hc => exact ⟨c, hc, rfl⟩

/-- Why a list of profiles is refused: it is empty, or behind profiles that relax from one to the
next stands the first pair of neighbours with a fault. -/
inductive Refused : List Profile → ProfileError → Prop
  | empty : Refused [] .empty
  | pair {before p q after e} : (before ++ [p]).IsChain Profile.Relaxes → PairFault p q e →
      Refused (before ++ p :: q :: after) e

theorem cons_of_append_eq {before after rest : List Profile} {p q : Profile}
    (h : q :: rest = before ++ p :: after) : ∃ more, before ++ [p] = q :: more := by
  cases before with
  | nil =>
    obtain ⟨rfl, -⟩ := List.cons.inj h
    exact ⟨[], rfl⟩
  | cons b before =>
    obtain ⟨rfl, -⟩ := List.cons.inj h
    exact ⟨before ++ [p], rfl⟩

/-- The first pair is at fault, or a later one. -/
theorem refused_cons_cons {p q : Profile} {rest : List Profile} {e : ProfileError} :
    Refused (p :: q :: rest) e ↔ PairFault p q e ∨ p.Relaxes q ∧ Refused (q :: rest) e := by
  constructor
  · intro h
    generalize hlist : p :: q :: rest = list at h
    cases h with
    | empty => cases hlist
    | @pair before p' q' after _ hchain hfault =>
      cases before with
      | nil =>
        cases hlist
        exact .inl hfault
      | cons a before =>
        obtain ⟨rfl, hrest⟩ := List.cons.inj hlist
        obtain ⟨more, hmore⟩ := cons_of_append_eq hrest
        rw [List.cons_append, hmore, List.isChain_cons_cons, ← hmore] at hchain
        rw [hrest]
        exact .inr ⟨hchain.1, .pair hchain.2 hfault⟩
  · intro h
    rcases h with hfault | ⟨hpq, h⟩
    · exact @Refused.pair [] p q rest e (.singleton p) hfault
    · generalize hlist : q :: rest = list at h
      cases h with
      | empty => cases hlist
      | @pair before p' q' after _ hchain hfault =>
        obtain ⟨more, hmore⟩ := cons_of_append_eq hlist
        rw [← List.cons_append]
        refine .pair ?_ hfault
        rw [List.cons_append, hmore, List.isChain_cons_cons, ← hmore]
        exact ⟨hpq, hchain⟩

theorem not_refused_singleton {p : Profile} {e : ProfileError} : ¬ Refused [p] e := by
  intro h
  generalize hlist : [p] = list at h
  cases h with
  | empty => cases hlist
  | pair =>
    have hlength := congrArg List.length hlist
    simp only [List.length_append, List.length_cons, List.length_nil] at hlength
    omega

theorem firstFault?_eq_some_iff {ps : List Profile} (hps : ∀ p ∈ ps, p.Built) (hne : ps ≠ [])
    {e : ProfileError} : firstFault? ps = some e ↔ Refused ps e := by
  fun_induction firstFault? ps with
  | case1 p q rest fault hfault =>
    have hq : q.Built := hps q (by simp)
    rw [refused_cons_cons, ← stepFault?_eq_some_iff hq, ← stepFault?_eq_none_iff, hfault]
    simp only [reduceCtorEq, false_and, or_false]
  | case2 p q rest hnone ih =>
    have hq : q.Built := hps q (by simp)
    rw [ih (fun r hr => hps r (List.mem_cons_of_mem _ hr)) (List.cons_ne_nil _ _),
      refused_cons_cons, ← stepFault?_eq_some_iff hq, ← stepFault?_eq_none_iff, hnone]
    simp only [reduceCtorEq, true_and, false_or]
  | case3 ps hshort =>
    cases ps with
    | nil => exact absurd rfl hne
    | cons p ps =>
      cases ps with
      | nil => simp [not_refused_singleton]
      | cons q rest => exact absurd rfl (hshort p q rest)

theorem refused_nil_iff {e : ProfileError} : Refused [] e ↔ e = .empty := by
  constructor
  · intro h
    generalize hlist : ([] : List Profile) = list at h
    cases h with
    | empty => rfl
    | pair => simp at hlist
  · intro h
    exact h ▸ .empty

theorem ofList_eq_ok_iff {list : List Profile} {ps : Profiles} :
    ofList list = .ok ps ↔ ps.toList = list ∧ ps.Relaxing := by
  refine ⟨ofList_eq_ok, fun h => ?_⟩
  obtain ⟨rfl, hps⟩ := h
  have hnone : firstFault? (ps.oldest :: ps.newer) = none :=
    firstFault?_eq_none_iff.2 (List.isChain_iff_pairwise.2 hps)
  rw [toList, ofList, hnone]

theorem ofList_eq_error_iff {list : List Profile} (hlist : ∀ p ∈ list, p.Built)
    {e : ProfileError} : ofList list = .error e ↔ Refused list e := by
  cases list with
  | nil =>
    rw [refused_nil_iff, ofList, Except.error.injEq]
    exact eq_comm
  | cons p ps =>
    rw [← firstFault?_eq_some_iff hlist (List.cons_ne_nil p ps), ofList]
    cases firstFault? (p :: ps) with
    | none => simp
    | some fault => simp

/-- **The check tells exactly the lists that relax from release to release.** A profile rejects the
constructs that it was built from, or those left by relaxing, and a search by halving finds them. A
list of such profiles is accepted exactly if there is one and each relaxes all earlier ones, not only
its neighbour. Otherwise the error is that of the empty list, or it describes the first pair of
neighbours at fault: releases out of order before anything else, then the first construct in
declaration order that the later profile refuses and the earlier one accepts. -/
theorem ofList_check :
    (∀ release given c, (Profile.ofList release given).rejects c = true ↔ c ∈ given) ∧
    (∀ (p : Profile) release allow c, (p.relaxed release allow).rejects c = true ↔
      p.rejects c = true ∧ allow c = false) ∧
    (∀ p : Profile, p.Built → ∀ c, (p.rejects c = true ↔ c ∈ p.rejections) ∧
      p.rejections.toArray.binSearchContains c (fun a b => decide (a.index < b.index)) =
        p.rejects c) ∧
    ∀ list : List Profile, (∀ p ∈ list, p.Built) →
      ((∃ ps, ofList list = .ok ps ∧ ps.toList = list) ↔
        list ≠ [] ∧ list.Pairwise Profile.Relaxes) ∧
      ∀ e, ofList list = .error e ↔ Refused list e := by
  refine ⟨fun release given c => ?_, fun p release allow c => ?_, fun p hp c => ?_,
    fun list hlist => ⟨?_, fun e => ofList_eq_error_iff hlist⟩⟩
  · rw [Profile.rejects_iff, Profile.mem_rejections_ofList]
  · rw [Profile.rejects_iff, Profile.rejects_iff, Profile.mem_rejections_relaxed]
  · refine ⟨Profile.rejects_iff, ?_⟩
    rw [Bool.eq_iff_iff, hp.binSearchContains_iff, Profile.rejects_iff]
  · constructor
    · intro h
      obtain ⟨ps, hok, rfl⟩ := h
      exact ⟨List.cons_ne_nil _ _, (ofList_eq_ok hok).2⟩
    · intro h
      obtain ⟨hne, hrelaxes⟩ := h
      cases list with
      | nil => exact absurd rfl hne
      | cons oldest newer => exact ⟨⟨oldest, newer⟩, ofList_eq_ok_iff.2 ⟨rfl, hrelaxes⟩, rfl⟩

/-! ## A profile that takes back what was accepted -/

namespace TakenBack

def oldest : Profile := .ofList 8 [.records, .moduleDeclarations, .records]

/-- The last profile refuses text blocks and sealed types, which the one before it accepts. -/
def profiles : List Profile :=
  [oldest, oldest.relaxed 9 (· = .moduleDeclarations),
    .ofList 16 [.sealedTypes, .records, .textBlocks]]

theorem ofList_names_textBlocks : (∀ p ∈ profiles, p.Built) ∧
    ofList profiles = .error (.notMonotonic 9 16 .textBlocks) ∧
    Refused profiles (.notMonotonic 9 16 .textBlocks) ∧
    ¬ profiles.Pairwise Profile.Relaxes ∧
    ∃ ps, ofList (profiles.take 2) = .ok ps ∧ ps.toList = profiles.take 2 := by
  obtain ⟨-, -, -, hcheck⟩ := ofList_check
  have hbuilt : ∀ p ∈ profiles, p.Built := by
    intro p hp
    simp only [profiles, List.mem_cons, List.not_mem_nil, or_false] at hp
    rcases hp with rfl | rfl | rfl
    · exact .ofList _ _
    · exact .relaxed (.ofList _ _) _ _
    · exact .ofList _ _
  have herror : ofList profiles = .error (.notMonotonic 9 16 .textBlocks) := rfl
  obtain ⟨hok, hrefused⟩ := hcheck profiles hbuilt
  refine ⟨hbuilt, herror, (hrefused _).1 herror, fun hrelaxes => ?_, ?_⟩
  · obtain ⟨ps, hps, -⟩ := hok.2 ⟨by decide, hrelaxes⟩
    rw [herror] at hps
    cases hps
  · refine (hcheck _ fun p hp => hbuilt p (List.mem_of_mem_take hp)).1.2 ⟨by decide, ?_⟩
    exact List.pairwise_pair.2 ⟨by decide, by decide⟩

end TakenBack

end Profiles

end MinimumRelease
