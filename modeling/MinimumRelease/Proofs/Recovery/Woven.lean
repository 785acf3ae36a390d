import Mathlib.Data.List.Chain
import MinimumRelease.Proofs.Recovery.Rearrangement

/-! # Placeholders in a text

A text is woven from placeholder members if the stem of their names stands
nowhere else in it (`Woven`). Such a text can be cut between any two characters
that are not neighbours in a member, and put together again wherever the stem
cannot arise (`Woven.split`, `Woven.append`). The members can be counted: the
stem occurs as often as there are members, and each member as often as its
number is among theirs (`Woven.occurrences_stem`, `Woven.occurrences_member`). -/

namespace MinimumRelease.Recovery

open Token

/-! ## Occurrences -/

/-- An occurrence of `p` begins in `as` and ends in `bs`. -/
def Straddles (p as bs : List Char) : Prop :=
  ∃ u v, p = u ++ v ∧ u ≠ [] ∧ v ≠ [] ∧ u <:+ as ∧ v <+: bs

theorem Straddles.mono {p as as' bs bs' : List Char} (h : Straddles p as bs) (ha : as <:+ as')
    (hb : bs <+: bs') : Straddles p as' bs' := by
  obtain ⟨u, v, hp, hu, hv, hua, hvb⟩ := h
  exact ⟨u, v, hp, hu, hv, hua.trans ha, hvb.trans hb⟩

theorem getLast?_of_suffix {u as : List Char} (hu : u ≠ []) (h : u <:+ as) :
    u.getLast? = as.getLast? := by
  obtain ⟨w, rfl⟩ := h
  rw [List.getLast?_append, List.getLast?_eq_some_getLast hu, Option.some_or]

theorem head?_of_leading {v bs : List Char} (hv : v ≠ []) (h : v <+: bs) :
    v.head? = bs.head? := by
  obtain ⟨w, rfl⟩ := h
  rw [List.head?_append, List.head?_eq_some_head hv, Option.some_or]

theorem infix_append_of_not_straddles {p as bs : List Char} (h : ¬ Straddles p as bs) :
    p <:+: as ++ bs ↔ p <:+: as ∨ p <:+: bs := by
  rw [List.infix_append_iff]
  constructor
  · intro hp
    rcases hp with ha | hb | ⟨u, v, rfl, hu, hv⟩
    · exact .inl ha
    · exact .inr hb
    · by_cases hu' : u = []
      · exact .inr (by simpa [hu'] using hv.isInfix)
      · by_cases hv' : v = []
        · exact .inl (by simpa [hv'] using hu.isInfix)
        · exact absurd ⟨u, v, rfl, hu', hv', hu, hv⟩ h
  · intro hp
    exact hp.elim .inl fun hb => .inr (.inl hb)

theorem occurrences_eq_zero {p cs : List Char} (h : ¬ p <:+: cs) : occurrences p cs = 0 := by
  fun_induction occurrences p cs with
  | case1 => rfl
  | case2 c cs hc ih => exact absurd (List.isPrefixOf_iff_prefix.1 hc).isInfix h
  | case3 c cs hc ih => exact ih fun hp => h (hp.trans (List.suffix_cons c cs).isInfix)

theorem occurrences_append_self {p : List Char} (hp : p ≠ []) (cs : List Char) :
    occurrences p (p ++ cs) = occurrences p cs + 1 := by
  obtain ⟨a, p', rfl⟩ := List.exists_cons_of_ne_nil hp
  have hprefix : (a :: p').isPrefixOf (a :: (p' ++ cs)) = true :=
    List.isPrefixOf_iff_prefix.2 ⟨cs, rfl⟩
  rw [List.cons_append, occurrences, if_pos hprefix, List.length_cons, Nat.add_sub_cancel,
    List.drop_left]

/-- Where no occurrence straddles, the two parts are counted on their own. -/
theorem occurrences_append {p : List Char} (hp : p ≠ []) {as bs : List Char}
    (h : ¬ Straddles p as bs) : occurrences p (as ++ bs) = occurrences p as + occurrences p bs := by
  fun_induction occurrences p as with
  | case1 => simp
  | case2 c cs hc ih =>
    obtain ⟨rest, hrest⟩ := List.isPrefixOf_iff_prefix.1 hc
    have hdrop : cs.drop (p.length - 1) = rest := by
      have hlen : p.length = p.length - 1 + 1 := by
        have := List.length_pos_iff.2 hp
        omega
      have := congrArg (List.drop p.length) hrest
      rw [List.drop_left, hlen, List.drop_succ_cons] at this
      exact this.symm
    rw [hdrop] at ih ⊢
    have hsuffix : rest <:+ c :: cs := ⟨p, hrest⟩
    rw [← hrest, List.append_assoc, occurrences_append_self hp,
      ih fun hs => h (hs.mono hsuffix (List.prefix_refl _))]
    omega
  | case3 c cs hc ih =>
    have hnot : ¬ p.isPrefixOf (c :: (cs ++ bs)) = true := by
      rw [List.isPrefixOf_iff_prefix] at hc ⊢
      intro ⟨rest, hrest⟩
      rw [← List.cons_append] at hrest
      rcases List.append_eq_append_iff.1 hrest with ⟨zs, hz, -⟩ | ⟨zs, hz, hbs⟩
      · exact hc ⟨zs, hz.symm⟩
      · by_cases hnil : zs = []
        · exact hc ⟨[], by simp [hz, hnil]⟩
        · exact h ⟨c :: cs, zs, hz, by simp, hnil, List.suffix_refl _, ⟨rest, hbs.symm⟩⟩
    rw [List.cons_append, occurrences, if_neg hnot]
    exact ih fun hs => h (hs.mono (List.suffix_cons c cs) (List.prefix_refl _))

/-! ## Members -/

/-- The member that a placeholder consists of. -/
def member (n : Nat) : List Char :=
  ("void " ++ placeholderStem ++ Nat.repr n ++ "__() \x7b\x7d").toList

theorem placeholder_eq (n : Nat) : placeholder n = member n ++ ['\n'] := by
  simp [placeholder, member]

/-- The number and what follows it. -/
def ending (n : Nat) : List Char := (Nat.repr n).toList ++ "__() \x7b\x7d".toList

theorem member_eq (n : Nat) :
    member n = "void ".toList ++ (placeholderStem.toList ++ ending n) := by
  simp [member, ending]

theorem isDigit_of_mem_repr {n : Nat} {c : Char} (h : c ∈ (Nat.repr n).toList) :
    c.isDigit = true := by
  rw [Nat.toList_repr] at h
  exact Nat.isDigit_of_mem_toDigits (by decide) (by decide) h

theorem mem_ending {n : Nat} {c : Char} (h : c ∈ ending n) :
    c.isDigit = true ∨ c ∈ "__() \x7b\x7d".toList :=
  (List.mem_append.1 h).imp isDigit_of_mem_repr id

theorem exists_member_eq_cons (n : Nat) : ∃ cs, member n = 'v' :: 'o' :: cs :=
  ⟨_, member_eq n⟩

theorem getLast?_member (n : Nat) : (member n).getLast? = some '}' := by
  rw [member, String.toList_append, List.getLast?_append]
  rfl

theorem member_injective {i n : Nat} (h : member i = member n) : i = n := by
  rw [member_eq, member_eq] at h
  have hending := List.append_cancel_left (List.append_cancel_left h)
  have hdigits := List.append_cancel_right hending
  rw [Nat.toList_repr, Nat.toList_repr] at hdigits
  have hvalue := congrArg (fun ds => Nat.ofDigitChars 10 ds 0) hdigits
  simpa using hvalue

/-! ## What stands next to what -/

/-- What two neighbours in a member have to be like. -/
def Adjacent (x y : Char) : Prop :=
  x ≠ '}' ∧ (y = '}' → x = '{') ∧ (isWordChar x = false → y ∈ ['_', ')', ' ', '{', '}'])

instance (x y : Char) : Decidable (Adjacent x y) := inferInstanceAs (Decidable (_ ∧ _))

theorem adjacent_of_word {x y : Char} (hx : isWordChar x = true) (hy : y ≠ '}') :
    Adjacent x y := by
  refine ⟨?_, fun h => absurd h hy, fun h => ?_⟩
  · intro h
    rw [h] at hx
    cases hx
  · rw [hx] at h
    cases h

theorem isChain_of_word {cs : List Char} (h : ∀ c ∈ cs, isWordChar c = true) :
    cs.IsChain Adjacent := by
  induction cs with
  | nil => exact .nil
  | cons c cs ih =>
    obtain ⟨hc, hcs⟩ := List.forall_mem_cons.1 h
    cases cs with
    | nil => exact .singleton c
    | cons d cs =>
      refine .cons_cons (adjacent_of_word hc ?_) (ih hcs)
      intro hd
      have := hcs d List.mem_cons_self
      rw [hd] at this
      cases this

theorem isChain_member (n : Nat) : (member n).IsChain Adjacent := by
  have hname : ∀ c ∈ (placeholderStem ++ Nat.repr n ++ "__").toList, isWordChar c = true :=
    List.all_eq_true.1 (all_isWordChar_name n)
  have hsplit : member n = "void ".toList ++
      ((placeholderStem ++ Nat.repr n ++ "__").toList ++ "() \x7b\x7d".toList) := by
    simp [member]
  rw [hsplit, List.isChain_append, List.isChain_append]
  refine ⟨by decide, ⟨isChain_of_word hname, by decide, ?_⟩, ?_⟩
  · intro x hx y hy
    have hparen : y ≠ '}' := by
      rw [show y = '(' from (Option.some.inj hy).symm]
      decide
    exact adjacent_of_word (hname x (List.mem_of_getLast? hx)) hparen
  · intro x hx y hy
    obtain rfl : ' ' = x := Option.some.inj hx
    obtain rfl : '_' = y := by simpa [placeholderStem] using hy
    decide

/-- No member is cut where two characters meet that are not neighbours in a member. -/
theorem not_straddles_member {as bs : List Char}
    (h : ∀ x y, as.getLast? = some x → bs.head? = some y → ¬ Adjacent x y) (n : Nat) :
    ¬ Straddles (member n) as bs := by
  intro ⟨u, v, huv, hu, hv, hua, hvb⟩
  have hchain := isChain_member n
  rw [huv, List.isChain_append] at hchain
  have hx := List.getLast?_eq_some_getLast hu
  have hy := List.head?_eq_some_head hv
  exact h _ _ ((getLast?_of_suffix hu hua).symm.trans hx) ((head?_of_leading hv hvb).symm.trans hy)
    (hchain.2.2 _ hx _ hy)

/-! ## Weaving -/

/-- A text that has the stem only in the members of the placeholders `ns`, in this order. -/
inductive Woven : List Nat → List Char → Prop
  | gap {cs : List Char} : ¬ placeholderStem.toList <:+: cs → Woven [] cs
  | cons {gap cs : List Char} {ns : List Nat} (n : Nat) : ¬ placeholderStem.toList <:+: gap →
      Woven ns cs → Woven (n :: ns) (gap ++ (member n ++ cs))

namespace Woven

variable {as bs cs : List Char} {ms ns : List Nat} {n : Nat}

theorem nil : Woven [] [] := .gap (by decide)

/-- A text that begins with a member. -/
theorem cons_member (n : Nat) (h : Woven ns cs) : Woven (n :: ns) (member n ++ cs) := by
  have hgap : ¬ placeholderStem.toList <:+: [] := by decide
  have hcons := Woven.cons n hgap h
  rwa [List.nil_append] at hcons

theorem cons_gap {gap : List Char} (h : Woven ns cs)
    (hg : ∀ bs, bs <+: cs → ¬ placeholderStem.toList <:+: bs →
      ¬ placeholderStem.toList <:+: gap ++ bs) : Woven ns (gap ++ cs) := by
  cases h with
  | gap hcs => exact .gap (hg cs (List.prefix_refl _) hcs)
  | @cons g cs ns n hgap hcs =>
    rw [← List.append_assoc]
    exact .cons n (hg g (List.prefix_append ..) hgap) hcs

/-- Two texts can be put together where no word goes on. -/
theorem append (ha : Woven ms as) (hb : Woven ns bs)
    (h : ¬ Straddles placeholderStem.toList as bs) : Woven (ms ++ ns) (as ++ bs) := by
  induction ha with
  | @gap as has =>
    refine hb.cons_gap fun cs hcs hstem hsub => ?_
    have hnot : ¬ Straddles placeholderStem.toList as cs := fun hs =>
      h (hs.mono (List.suffix_refl _) hcs)
    exact ((infix_append_of_not_straddles hnot).1 hsub).elim has hstem
  | @cons g cs ms n hg _ ih =>
    have hsuffix : cs <:+ g ++ (member n ++ cs) :=
      (List.suffix_append _ _).trans (List.suffix_append _ _)
    rw [List.append_assoc, List.append_assoc]
    exact .cons n hg (ih fun hs => h (hs.mono hsuffix (List.prefix_refl _)))

/-- A text can be cut where no member is cut. -/
theorem split (hw : Woven ns cs) (hcs : cs = as ++ bs) (h : ∀ n, ¬ Straddles (member n) as bs) :
    ∃ ms₁ ms₂, ns = ms₁ ++ ms₂ ∧ Woven ms₁ as ∧ Woven ms₂ bs := by
  induction hw generalizing as with
  | gap hstem =>
    subst hcs
    exact ⟨[], [], rfl, .gap fun hs => hstem (List.infix_append_of_infix_left hs),
      .gap fun hs => hstem (List.infix_append_of_infix_right hs)⟩
  | @cons g cs ns n hg hw ih =>
    rcases List.append_eq_append_iff.1 hcs with ⟨zs, rfl, hzs⟩ | ⟨zs, rfl, rfl⟩
    · -- the cut is behind the gap
      rcases List.append_eq_append_iff.1 hzs with ⟨ys, rfl, hys⟩ | ⟨ys, hn, rfl⟩
      · obtain ⟨ms₁, ms₂, rfl, h1, h2⟩ := ih hys fun k hs =>
          h k (hs.mono ((List.suffix_append _ _).trans (List.suffix_append _ _))
            (List.prefix_refl _))
        exact ⟨n :: ms₁, ms₂, rfl, .cons n hg h1, h2⟩
      · -- the cut is at one end of the member, as it does not cut it
        by_cases hz : zs = []
        · rw [hz, List.nil_append] at hn
          rw [hz, List.append_nil, ← hn]
          exact ⟨[], n :: ns, rfl, .gap hg, hw.cons_member n⟩
        · by_cases hy : ys = []
          · rw [hy, List.append_nil] at hn
            have hgap := Woven.cons n hg .nil
            rw [List.append_nil, hn] at hgap
            rw [hy, List.nil_append]
            exact ⟨[n], ns, rfl, hgap, hw⟩
          · exact absurd ⟨zs, ys, hn, hz, hy, List.suffix_append _ _, List.prefix_append _ _⟩ (h n)
    · -- the cut is in the gap
      refine ⟨[], n :: ns, rfl, .gap fun hs => hg (List.infix_append_of_infix_left hs),
        .cons n (fun hs => hg (List.infix_append_of_infix_right hs)) hw⟩

end Woven

/-! ## Counting -/

/-- A pattern that no member can be mistaken for a part of: a `v` that does not begin it stands
before an `e`, and a closing brace ends it. -/
structure Countable (p : List Char) : Prop where
  letter : ∀ u v, u ≠ [] → p = u ++ 'v' :: v → v.head? = some 'e'
  brace : ∀ u v, p = u ++ v → u.getLast? = some '}' → v = []
  stem : placeholderStem.toList <:+: p

theorem isChain_of_not_mem {c : Char} {cs : List Char} (h : c ∉ cs) (d : Char) :
    cs.IsChain fun x y => x = c → y = d := by
  refine (List.pairwise_of_forall_mem_list fun a ha _ _ hac => ?_).isChain
  exact absurd (hac ▸ ha) h

theorem not_mem_ending {c : Char} (hd : c.isDigit = false) (hc : c ∉ "__() \x7b\x7d".toList)
    (n : Nat) : c ∉ ending n := by
  intro h
  rcases mem_ending h with h | h
  · rw [hd] at h
    cases h
  · exact hc h

/-- A `v` stands before an `e` if it stands behind another character. -/
theorem head?_of_isChain_tail {p u v : List Char} (h : p.tail.IsChain fun x y => x = 'v' → y = 'e')
    (hlast : p.getLast? ≠ some 'v') (hu : u ≠ []) (hp : p = u ++ 'v' :: v) :
    v.head? = some 'e' := by
  obtain ⟨a, u, rfl⟩ := List.exists_cons_of_ne_nil hu
  cases v with
  | nil => exact absurd (by rw [hp, List.getLast?_append]; rfl) hlast
  | cons y v =>
    rw [hp, List.cons_append, List.tail_cons, List.isChain_append] at h
    rw [List.head?_cons, (List.isChain_cons_cons.1 h.2.1).1 rfl]

theorem countable_stem : Countable placeholderStem.toList where
  letter _ _ hu hp := head?_of_isChain_tail (by decide) (by decide) hu hp
  brace u v hp hlast := by
    have hmem : '}' ∈ placeholderStem.toList := by
      rw [hp]
      exact List.mem_append_left _ (List.mem_of_getLast? hlast)
    exact absurd hmem (by decide)
  stem := List.infix_rfl

theorem countable_member (n : Nat) : Countable (member n) where
  letter u v hu hp := by
    refine head?_of_isChain_tail ?_ ?_ hu hp
    · have htail : (member n).tail =
          ("oid ".toList ++ placeholderStem.toList) ++ ending n := by
        rw [member_eq, List.append_assoc]
        rfl
      rw [htail, List.isChain_append]
      refine ⟨by decide, isChain_of_not_mem (not_mem_ending rfl (by decide) n) 'e', ?_⟩
      intro x hx y _ hxv
      obtain rfl : '_' = x := Option.some.inj hx
      exact absurd hxv (by decide)
    · rw [getLast?_member]
      decide
  brace u v hp hlast := by
    have hchain := isChain_member n
    rw [hp, List.isChain_append] at hchain
    cases v with
    | nil => rfl
    | cons y v => exact absurd rfl (hchain.2.2 '}' hlast y rfl).1
  stem := by
    rw [member_eq]
    exact List.infix_append' ..

namespace Countable

variable {p : List Char} (hp : Countable p)

include hp

theorem ne_nil : p ≠ [] := by
  intro h
  have := hp.stem
  rw [h] at this
  exact absurd this (by decide)

/-- A pattern that ends in a member does not begin before it. -/
theorem not_straddles_before (as cs : List Char) (n : Nat) :
    ¬ Straddles p as (member n ++ cs) := by
  intro ⟨u, v, huv, hu, hv, _, hvb⟩
  obtain ⟨c, v, rfl⟩ := List.exists_cons_of_ne_nil hv
  obtain ⟨ds, hmember⟩ := exists_member_eq_cons n
  rw [hmember, List.cons_append, List.cons_append, List.cons_prefix_cons] at hvb
  obtain ⟨rfl, hvb⟩ := hvb
  have hhead := hp.letter u v hu huv
  cases v with
  | nil => cases hhead
  | cons d v =>
    obtain ⟨rfl, -⟩ := List.cons_prefix_cons.1 hvb
    cases hhead

/-- A pattern that begins in a member ends with it. -/
theorem not_straddles_behind (as cs : List Char) (n : Nat) :
    ¬ Straddles p (as ++ member n) cs := by
  intro ⟨u, v, huv, hu, hv, hua, _⟩
  refine hv (hp.brace u v huv ?_)
  rw [getLast?_of_suffix hu hua, List.getLast?_append, getLast?_member, Option.some_or]

theorem occurrences_cons {gap : List Char} (hgap : ¬ placeholderStem.toList <:+: gap) (n : Nat)
    (cs : List Char) : occurrences p (gap ++ (member n ++ cs)) =
      occurrences p (member n) + occurrences p cs := by
  have hnone : occurrences p gap = 0 := occurrences_eq_zero fun h => hgap (hp.stem.trans h)
  have hbehind := hp.not_straddles_behind [] cs n
  rw [List.nil_append] at hbehind
  rw [occurrences_append hp.ne_nil (hp.not_straddles_before gap cs n),
    occurrences_append hp.ne_nil hbehind, hnone, Nat.zero_add]

end Countable

/-- Only members are counted, and of these the ones that `q` picks. -/
theorem Woven.occurrences_eq {p : List Char} (hp : Countable p) {q : Nat → Bool}
    (hq : ∀ n, occurrences p (member n) = if q n then 1 else 0) {ns : List Nat} {cs : List Char}
    (h : Woven ns cs) : occurrences p cs = ns.countP q := by
  induction h with
  | gap hcs => exact occurrences_eq_zero fun h => hcs (hp.stem.trans h)
  | cons n hgap _ ih =>
    rw [hp.occurrences_cons hgap, ih, hq, List.countP_cons, Nat.add_comm]

theorem occurrences_stem_member (n : Nat) : occurrences placeholderStem.toList (member n) = 1 := by
  have hne := countable_stem.ne_nil
  have hbefore : ¬ Straddles placeholderStem.toList "void ".toList
      (placeholderStem.toList ++ ending n) := by
    intro ⟨u, v, huv, hu, _, hua, _⟩
    have hlast : u.getLast? = some ' ' := getLast?_of_suffix hu hua
    have hspace : ' ' ∈ placeholderStem.toList := by
      rw [huv]
      exact List.mem_append_left _ (List.mem_of_getLast? hlast)
    exact absurd hspace (by decide)
  have hending : ¬ placeholderStem.toList <:+: ending n := by
    intro hsub
    have hletter : 'l' ∈ placeholderStem.toList := by decide
    have hnot : 'l' ∉ ending n := not_mem_ending rfl (by decide) n
    exact hnot (hsub.mem hletter)
  rw [member_eq, occurrences_append hne hbefore, occurrences_append_self hne,
    occurrences_eq_zero hending, occurrences_eq_zero (by decide)]

theorem occurrences_member_member (i n : Nat) :
    occurrences (member i) (member n) = if n == i then 1 else 0 := by
  by_cases hni : n = i
  · subst hni
    have hself := occurrences_append_self (countable_member n).ne_nil []
    rw [List.append_nil] at hself
    rw [hself, if_pos (beq_self_eq_true n), occurrences]
  · rw [if_neg (by simpa using hni)]
    refine occurrences_eq_zero fun h => ?_
    obtain ⟨s, t, hst⟩ := h
    have ht : t = [] := by
      refine (countable_member n).brace (s ++ member i) t hst.symm ?_
      rw [List.getLast?_append, getLast?_member, Option.some_or]
    have hs : s = [] := by
      refine Classical.byContradiction fun hs => ?_
      obtain ⟨ds, hmember⟩ := exists_member_eq_cons i
      rw [hmember, List.append_assoc] at hst
      cases (countable_member n).letter s _ hs hst.symm
    subst ht hs
    exact hni (member_injective (by simpa using hst)).symm

/-- **The stem is counted once for each member.** -/
theorem Woven.occurrences_stem {ns : List Nat} {cs : List Char} (h : Woven ns cs) :
    occurrences placeholderStem.toList cs = ns.length := by
  rw [h.occurrences_eq countable_stem (q := fun _ => true) occurrences_stem_member,
    List.countP_true]

/-- **A member occurs as often as its number.** -/
theorem Woven.occurrences_member {ns : List Nat} {cs : List Char} (h : Woven ns cs) (i : Nat) :
    occurrences (member i) cs = ns.count i :=
  h.occurrences_eq (countable_member i) (occurrences_member_member i)

end MinimumRelease.Recovery
