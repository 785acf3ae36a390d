import Mathlib.Data.List.Basic
import Mathlib.Data.Nat.Basic
import Mathlib.Order.Lattice
import MinimumRelease.Rule.Table

/-! # The index and a plain scan

A table answers a query from its index, and looks at few of its rules. What it
skips could not have answered. A rule that covers an imported name has a package
that the query visits (`Rule.mem_dottedLeads_of_coversImport`), and a rule for a
bare name is filed under that name. The leading parts of a name are visited
shortest first, and each group of rules in table order, which is the order of a
stable sort by the length of the package (`groups_eq_mergeSort`). -/

namespace MinimumRelease

/-! ## Lists without repetition -/

section

variable {α : Type} [DecidableEq α]

theorem filter_eraseDups (p : α → Bool) : ∀ l : List α,
    (l.filter p).eraseDups = l.eraseDups.filter p
  | [] => rfl
  | a :: l => by
    have hlen := List.length_filter_le (fun b => !b == a) l
    have ih := filter_eraseDups p (l.filter fun b => !b == a)
    rw [List.eraseDups_cons]
    cases hp : p a with
    | true =>
      rw [List.filter_cons_of_pos hp, List.filter_cons_of_pos hp, List.eraseDups_cons, ← ih,
        List.filter_filter, List.filter_filter]
      simp only [Bool.and_comm]
    | false =>
      -- no element equal to `a` passes, so it makes no difference that they are dropped first
      have hsame : l.filter p = (l.filter fun b => !b == a).filter p := by
        rw [List.filter_filter]
        refine List.filter_congr fun b _ => ?_
        by_cases hb : b = a
        · simp [hb, hp]
        · simp [hb]
      rw [List.filter_cons_of_neg (by simp [hp]), List.filter_cons_of_neg (by simp [hp]), hsame, ih]
termination_by l => l.length
decreasing_by simp only [List.length_cons]; omega

/-- An element that stands several times in a row counts once. -/
theorem eraseDups_replicate_append (n : Nat) (a : α) {l l' : List α}
    (h : l.eraseDups = l'.eraseDups) :
    (List.replicate (n + 1) a ++ l).eraseDups = (a :: l').eraseDups := by
  rw [List.replicate_succ, List.cons_append, List.eraseDups_cons, List.eraseDups_cons,
    List.filter_append, List.filter_replicate_of_neg (by simp), List.nil_append, filter_eraseDups,
    filter_eraseDups, h]

theorem idxOf_lt_of_filter {p : α → Bool} {a b : α} (ha : p a = true) (hb : p b = true) :
    ∀ {l : List α}, (l.filter p).idxOf a < (l.filter p).idxOf b → l.idxOf a < l.idxOf b
  | [], h => h
  | c :: l, h => by
    cases hc : p c with
    | true =>
      rw [List.filter_cons_of_pos hc] at h
      simp only [List.idxOf_cons, beq_iff_eq, Bool.cond_eq_ite] at h ⊢
      by_cases hca : c = a
      · by_cases hcb : c = b <;> simp_all
      · by_cases hcb : c = b
        · simp [hcb] at h
        · simp only [if_neg hca, if_neg hcb, Nat.add_lt_add_iff_right] at h ⊢
          exact idxOf_lt_of_filter ha hb h
    | false =>
      rw [List.filter_cons_of_neg (by simp [hc])] at h
      have hca : c ≠ a := by rintro rfl; rw [ha] at hc; cases hc
      have hcb : c ≠ b := by rintro rfl; rw [hb] at hc; cases hc
      rw [List.idxOf_cons_ne _ hca, List.idxOf_cons_ne _ hcb]
      exact Nat.succ_lt_succ (idxOf_lt_of_filter ha hb h)

/-- Elements are kept where they first occur. -/
theorem pairwise_eraseDups : ∀ l : List α,
    l.eraseDups.Pairwise fun a b => l.idxOf a < l.idxOf b
  | [] => .nil
  | a :: l => by
    have hlen := List.length_filter_le (fun b => !b == a) l
    have ih := pairwise_eraseDups (l.filter fun b => !b == a)
    have hne : ∀ b ∈ (l.filter fun b => !b == a).eraseDups, b ≠ a := fun b hb => by
      simpa using (List.mem_filter.1 (List.mem_eraseDups.1 hb)).2
    rw [List.eraseDups_cons, List.pairwise_cons]
    constructor
    · intro b hb
      rw [List.idxOf_cons_self, List.idxOf_cons_ne _ (hne b hb).symm]
      exact Nat.succ_pos _
    · refine ih.imp_of_mem fun {b c} hb hc hbc => ?_
      rw [List.idxOf_cons_ne _ (hne b hb).symm, List.idxOf_cons_ne _ (hne c hc).symm]
      exact Nat.succ_lt_succ (idxOf_lt_of_filter (p := fun d => !d == a)
        (by simpa using hne b hb) (by simpa using hne c hc) hbc)
termination_by l => l.length
decreasing_by simp only [List.length_cons]; omega

end

/-! ## Grouping is a stable sort -/

/-- Two lists that begin with the elements that pass `p`, and have none of them behind. -/
theorem append_inj_of_pass {α : Type} {p : α → Bool} {as bs cs ds : List α}
    (h : as ++ bs = cs ++ ds) (has : ∀ a ∈ as, p a = true) (hcs : ∀ a ∈ cs, p a = true)
    (hbs : ∀ a ∈ bs, p a = false) (hds : ∀ a ∈ ds, p a = false) : as = cs ∧ bs = ds := by
  have hfilter := congrArg (List.filter p) h
  have hnone : ∀ l : List α, (∀ a ∈ l, p a = false) → l.filter p = [] := fun l hl =>
    List.filter_eq_nil_iff.2 fun a ha => by simp [hl a ha]
  rw [List.filter_append, List.filter_append, List.filter_eq_self.2 has,
    List.filter_eq_self.2 hcs, hnone bs hbs, hnone ds hds, List.append_nil,
    List.append_nil] at hfilter
  subst hfilter
  exact ⟨rfl, List.append_cancel_left h⟩

section

variable {α κ : Type} [DecidableEq κ] (key : α → κ)

/-- The elements under each of the keys, one group behind the other. -/
def groups (keys : List κ) (xs : List α) : List α := keys.flatMap fun k => xs.filter (key · = k)

variable {key}

theorem key_mem_of_mem_groups {keys : List κ} {xs : List α} {x : α} (h : x ∈ groups key keys xs) :
    key x ∈ keys := by
  obtain ⟨k, hk, hx⟩ := List.mem_flatMap.1 h
  have hxk : key x = k := by simpa using (List.mem_filter.1 hx).2
  exact hxk ▸ hk

/-- A new first element goes to the head of its group. -/
theorem groups_cons {before behind : List κ} {x : α} (xs : List α) (hbefore : key x ∉ before)
    (hbehind : key x ∉ behind) : groups key (before ++ key x :: behind) (x :: xs) =
      groups key before xs ++ x :: groups key (key x :: behind) xs := by
  have hskip : ∀ ks : List κ, key x ∉ ks → groups key ks (x :: xs) = groups key ks xs := by
    intro ks hks
    refine List.flatMap_congr fun k hk => List.filter_cons_of_neg ?_
    have hne : key x ≠ k := fun hxk => hks (hxk ▸ hk)
    simpa using hne
  have hcons : ∀ ys : List α, groups key (key x :: behind) ys =
      ys.filter (key · = key x) ++ groups key behind ys := fun ys => List.flatMap_cons
  rw [groups, List.flatMap_append]
  show groups key before (x :: xs) ++ groups key (key x :: behind) (x :: xs) = _
  rw [hcons, hcons, hskip before hbefore, hskip behind hbehind, List.filter_cons_of_pos (by simp),
    List.cons_append]

/-- Groups under keys of ascending rank are the list sorted by rank, as both keep the order of
elements with the same key. -/
theorem groups_eq_mergeSort {ρ : Type} [LinearOrder ρ] (rank : κ → ρ) {keys : List κ}
    (hkeys : keys.Pairwise (rank · < rank ·)) {xs : List α} (h : ∀ x ∈ xs, key x ∈ keys) :
    groups key keys xs = xs.mergeSort (fun x y => rank (key x) ≤ rank (key y)) := by
  have htrans : ∀ x y z : α, decide (rank (key x) ≤ rank (key y)) = true →
      decide (rank (key y) ≤ rank (key z)) = true → decide (rank (key x) ≤ rank (key z)) = true := by
    simp only [decide_eq_true_eq]
    exact fun _ _ _ => le_trans
  have htotal : ∀ x y : α, (decide (rank (key x) ≤ rank (key y)) ||
      decide (rank (key y) ≤ rank (key x))) = true := by
    simp only [Bool.or_eq_true, decide_eq_true_eq]
    exact fun _ _ => le_total _ _
  induction xs with
  | nil => simp [groups]
  | cons x xs ih =>
    have ih := ih fun y hy => h y (List.mem_cons_of_mem _ hy)
    obtain ⟨front, back, hsorted, hrest, hfront⟩ := List.mergeSort_cons htrans htotal x xs
    have hback := List.pairwise_mergeSort htrans htotal (x :: xs)
    rw [hsorted, List.pairwise_append, List.pairwise_cons] at hback
    obtain ⟨before, behind, rfl⟩ := List.append_of_mem (h x List.mem_cons_self)
    rw [List.pairwise_append, List.pairwise_cons] at hkeys
    obtain ⟨-, ⟨hbehind, -⟩, hbefore⟩ := hkeys
    have hless : ∀ k ∈ before, rank k < rank (key x) := fun k hk => hbefore k hk _ List.mem_cons_self
    -- both lists put the elements of smaller rank before `x`, and all others behind it
    have hsplit : groups key before xs ++ groups key (key x :: behind) xs = front ++ back := by
      rw [← hrest, ← ih, groups, groups, groups, List.flatMap_append]
    obtain ⟨rfl, rfl⟩ := append_inj_of_pass (p := fun y => rank (key y) < rank (key x)) hsplit
      (fun y hy => by simpa using hless _ (key_mem_of_mem_groups hy))
      (fun y hy => by simpa using hfront y hy)
      (fun y hy => by
        rcases List.mem_cons.1 (key_mem_of_mem_groups hy) with hyx | hyk
        · simp [hyx]
        · simpa using le_of_lt (hbehind _ hyk))
      (fun y hy => by simpa using hback.2.1.1 y hy)
    rw [hsorted]
    exact groups_cons xs (fun hx => lt_irrefl _ (hless _ hx))
      (fun hx => lt_irrefl _ (hbehind _ hx))

end

/-! ## Leading parts of a name -/

namespace Text

theorem mem_dottedLeads_iff {lead name : List Char} :
    lead ∈ dottedLeads name ↔ ∃ rest, name = lead ++ rest ∧ endsOrMeets ['.'] rest = true := by
  induction name generalizing lead with
  | nil => simp [dottedLeads, endsOrMeets]
  | cons c cs ih =>
    cases lead with
    | nil => by_cases hc : c = '.' <;> simp [dottedLeads, endsOrMeets, hc]
    | cons d lead =>
      have hcons : d :: lead ∈ dottedLeads (c :: cs) ↔ c = d ∧ lead ∈ dottedLeads cs := by
        by_cases hc : c = '.' <;> simp [dottedLeads, hc, and_comm]
      simp only [hcons, ih, List.cons_append, List.cons.injEq, and_assoc, exists_and_left]

theorem pairwise_dottedLeads (name : List Char) :
    (dottedLeads name).Pairwise (·.length < ·.length) := by
  induction name with
  | nil => simp [dottedLeads]
  | cons c cs ih =>
    have hmap : ((dottedLeads cs).map (c :: ·)).Pairwise (·.length < ·.length) :=
      List.pairwise_map.2 (ih.imp Nat.succ_lt_succ)
    rw [dottedLeads]
    split
    · exact List.pairwise_cons.2 ⟨by simp, hmap⟩
    · exact hmap

end Text

namespace Rule

/-- A rule that covers an import has a package that is one of the leading parts of the name. -/
theorem mem_dottedLeads_of_coversImport {r : Rule} {name : String}
    (h : r.coversImport name = true) : r.package.toList ∈ Text.dottedLeads name.toList := by
  unfold coversImport at h
  split at h
  · cases h
  · next rest hafter =>
    refine Text.mem_dottedLeads_iff.2 ⟨rest, Text.after?_eq_some_iff.1 hafter, ?_⟩
    split at h
    · exact h
    · split at h
      · rfl
      · cases h

theorem coversOnDemand_self (r : Rule) : r.coversOnDemand r.package = true := by
  have hafter : Text.after? r.package.toList r.package.toList = some [] :=
    Text.after?_eq_some_iff.2 (List.append_nil _).symm
  rw [coversOnDemand, hafter]
  rfl

theorem mem_typeNames_of_coversSimple {r : Rule} {name : String} {packages : List String}
    (h : r.coversSimple name packages = true) : name ∈ r.typeNames := by
  rw [coversSimple] at h
  rw [typeNames]
  cases hscope : r.scope with
  | package =>
    rw [hscope] at h
    cases h
  | types names =>
    rw [hscope] at h
    simpa using (Bool.and_eq_true_iff.1 h).2

end Rule

/-! ## What the index holds -/

namespace RuleTable

theorem getD_file (key k : String) (r : Rule) (index : Std.HashMap String (List Rule)) :
    (file key r index).getD k [] = if key = k then r :: index.getD k [] else index.getD k [] := by
  rw [file, Std.HashMap.getD_insert]
  by_cases hk : key = k
  · simp [hk]
  · simp [hk]

theorem getD_byPackage (rules : List Rule) (package : String) :
    (ofRules rules).byPackage.getD package [] = rules.filter (·.package = package) := by
  show (rules.foldr (fun r index => file r.package r index) ∅).getD package [] = _
  induction rules with
  | nil => simp
  | cons r rules ih =>
    rw [List.foldr_cons, getD_file, ih, List.filter_cons]
    simp only [decide_eq_true_eq]

theorem getD_types (r : Rule) (types : List String) (index : Std.HashMap String (List Rule))
    (name : String) : (types.foldr (fun type => file type r) index).getD name [] =
      List.replicate (types.count name) r ++ index.getD name [] := by
  induction types with
  | nil => rfl
  | cons type types ih =>
    rw [List.foldr_cons, getD_file, ih, List.count_cons]
    by_cases hname : type = name
    · simp [hname, List.replicate_succ]
    · simp [hname]

/-- A rule is filed under a name as often as it lists the name. -/
theorem getD_byTypeName (rules : List Rule) (name : String) :
    (ofRules rules).byTypeName.getD name [] =
      rules.flatMap fun r => List.replicate (r.typeNames.count name) r := by
  show (rules.foldr (fun (r : Rule) index => r.typeNames.foldr (fun type => file type r) index)
    ∅).getD name [] = _
  induction rules with
  | nil => simp
  | cons r rules ih => rw [List.foldr_cons, getD_types, ih, List.flatMap_cons]

/-! ## What the queries answer -/

/-- The rules by length of their package, and in table order where that is the same. -/
def byPackageLength (rules : List Rule) : List Rule :=
  rules.mergeSort fun r s => r.package.length ≤ s.package.length

theorem underLeads_filter (rules : List Rule) (name : String) :
    ((ofRules rules).underLeads name).filter (·.coversImport name) =
      byPackageLength (rules.filter (·.coversImport name)) := by
  have hleads : ∀ r ∈ rules.filter (·.coversImport name),
      r.package.toList ∈ Text.dottedLeads name.toList := fun r hr =>
    Rule.mem_dottedLeads_of_coversImport (by simpa using (List.mem_filter.1 hr).2)
  have hsort : groups (fun r : Rule => r.package.toList) (Text.dottedLeads name.toList)
      (rules.filter (·.coversImport name)) = _ :=
    groups_eq_mergeSort List.length (Text.pairwise_dottedLeads name.toList) hleads
  simp only [String.length_toList] at hsort
  rw [byPackageLength, ← hsort, underLeads, List.filter_flatMap, groups]
  refine List.flatMap_congr fun lead _ => ?_
  rw [getD_byPackage, List.filter_filter, List.filter_filter]
  refine List.filter_congr fun r _ => ?_
  have hlead : r.package = String.ofList lead ↔ r.package.toList = lead := by
    rw [← String.toList_inj, String.toList_ofList]
  simp [hlead, Bool.and_comm]

theorem importFeatures_ofRules (rules : List Rule) (name : String) :
    (ofRules rules).importFeatures name =
      ((byPackageLength (rules.filter (·.coversImport name))).map (·.feature)).eraseDups := by
  rw [importFeatures, featuresOf, underLeads_filter]

theorem qualifiedFeatures_eq (t : RuleTable) (name : String) :
    t.qualifiedFeatures name = t.importFeatures name := rfl

theorem onDemandFeatures_ofRules (rules : List Rule) (package : String) :
    (ofRules rules).onDemandFeatures package =
      ((rules.filter fun r => r.isPackageLevel && r.package = package).map (·.feature)).eraseDups := by
  rw [onDemandFeatures, featuresOf, getD_byPackage, List.filter_filter]
  congr 3
  funext r
  by_cases hp : r.package = package
  · simp [← hp, r.coversOnDemand_self]
  · simp [hp]

theorem simpleFeatures_ofRules (rules : List Rule) (name : String) (packages : List String) :
    (ofRules rules).simpleFeatures name packages =
      ((rules.filter (·.coversSimple name packages)).map (·.feature)).eraseDups := by
  rw [simpleFeatures, featuresOf, getD_byTypeName]
  induction rules with
  | nil => rfl
  | cons r rules ih =>
    rw [List.flatMap_cons, List.filter_append, List.map_append, List.filter_replicate,
      List.filter_cons]
    cases hr : r.coversSimple name packages with
    | true =>
      obtain ⟨n, hn⟩ : ∃ n, r.typeNames.count name = n + 1 :=
        ⟨_, (Nat.succ_pred_eq_of_pos
          (List.count_pos_iff.2 (Rule.mem_typeNames_of_coversSimple hr))).symm⟩
      rw [if_pos rfl, if_pos rfl, hn, List.map_replicate, List.map_cons]
      exact eraseDups_replicate_append n r.feature ih
    | false =>
      rw [if_neg Bool.false_ne_true, if_neg Bool.false_ne_true, List.map_nil, List.nil_append, ih]

/-- The features of the rules, each once, in the order in which the rules first have them. -/
structure ListsFeatures (rules : List Rule) (fs : List Feature) : Prop where
  mem_iff : ∀ f, f ∈ fs ↔ ∃ r ∈ rules, r.feature = f
  nodup : fs.Nodup
  first : fs.Pairwise fun f g =>
    (rules.map (·.feature)).idxOf f < (rules.map (·.feature)).idxOf g

theorem listsFeatures_eraseDups (rules : List Rule) :
    ListsFeatures rules (rules.map (·.feature)).eraseDups where
  mem_iff f := by rw [List.mem_eraseDups, List.mem_map]
  nodup := (pairwise_eraseDups _).imp fun hfg => by
    rintro rfl
    exact Nat.lt_irrefl _ hfg
  first := pairwise_eraseDups _

/-- **The index answers as a scan of all rules would.** For any list of rules, an imported name and
a qualified one show the features of the rules that cover the name, those of shorter packages first;
a bare type name shows the features of the rules that cover it, and an on-demand import those of the
rules for the whole of exactly that package, in table order. -/
theorem answers_eq_scan (rules : List Rule) (name package : String) (packages : List String) :
    ListsFeatures (byPackageLength (rules.filter (·.coversImport name)))
      ((ofRules rules).importFeatures name) ∧
    ListsFeatures (byPackageLength (rules.filter (·.coversImport name)))
      ((ofRules rules).qualifiedFeatures name) ∧
    ListsFeatures (rules.filter (·.coversSimple name packages))
      ((ofRules rules).simpleFeatures name packages) ∧
    ListsFeatures (rules.filter fun r => r.isPackageLevel && r.package = package)
      ((ofRules rules).onDemandFeatures package) := by
  rw [qualifiedFeatures_eq, importFeatures_ofRules, simpleFeatures_ofRules,
    onDemandFeatures_ofRules]
  exact ⟨listsFeatures_eraseDups _, listsFeatures_eraseDups _, listsFeatures_eraseDups _,
    listsFeatures_eraseDups _⟩

end RuleTable

end MinimumRelease
