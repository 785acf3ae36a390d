import MinimumRelease.Proofs.Text.Segments
import MinimumRelease.Rule.Basic

/-! # Rules and segments of names

A rule compares texts: the package is a leading part of the name, and the next
character tells whether the name belongs to it. What it decides is a matter of
segments, the parts of a name between its dots (`Rule.covers_iff_segments`).
Nothing is asked of the names: they may be empty, begin with a dot or have two
dots in a row. -/

namespace MinimumRelease

namespace Rule

variable {package name : String} {feature : Feature} {names : List String}

theorem coversImport_ofPackage_iff : (ofPackage package feature).coversImport name = true ↔
    ∃ rest, name.toList = package.toList ++ rest ∧ Text.endsOrMeets ['.'] rest = true := by
  unfold coversImport ofPackage
  constructor
  · intro h
    split at h
    · cases h
    · next rest hafter => exact ⟨rest, Text.after?_eq_some_iff.1 hafter, h⟩
  · intro h
    obtain ⟨rest, hname, hrest⟩ := h
    rw [Text.after?_eq_some_iff.2 hname]
    exact hrest

theorem coversImport_ofTypes_iff : (ofTypes package names feature).coversImport name = true ↔
    ∃ member, name.toList = package.toList ++ '.' :: member ∧
      ∃ type ∈ names, ∃ tail, member = type.toList ++ tail ∧
        Text.endsOrMeets ['.', '$'] tail = true := by
  unfold coversImport ofTypes
  constructor
  · intro h
    split at h
    · cases h
    · next rest hafter =>
      dsimp only at h
      split at h
      · next member =>
        obtain ⟨type, htype, hmeets⟩ := List.any_eq_true.1 h
        split at hmeets
        · next tail htail =>
          exact ⟨member, Text.after?_eq_some_iff.1 hafter, type, htype, tail,
            Text.after?_eq_some_iff.1 htail, hmeets⟩
        · cases hmeets
      · cases h
  · intro h
    obtain ⟨member, hname, type, htype, tail, hmember, htail⟩ := h
    rw [Text.after?_eq_some_iff.2 hname]
    refine List.any_eq_true.2 ⟨type, htype, ?_⟩
    rw [Text.after?_eq_some_iff.2 hmember]
    exact htail

theorem coversOnDemand_iff {r : Rule} : r.coversOnDemand package = true ↔
    ∃ rest, r.package.toList = package.toList ++ rest ∧ Text.endsOrMeets ['.'] rest = true := by
  unfold coversOnDemand
  constructor
  · intro h
    split at h
    · next rest hafter => exact ⟨rest, Text.after?_eq_some_iff.1 hafter, h⟩
    · cases h
  · intro h
    obtain ⟨rest, hpackage, hrest⟩ := h
    rw [Text.after?_eq_some_iff.2 hpackage]
    exact hrest

/-- Segments behind the package, of which the first is a listed type or a class nested in it. -/
def NamesType (package : String) (names : List String) (name : String) : Prop :=
  ∃ s ss, Text.segments name.toList = Text.segments package.toList ++ s :: ss ∧
    ∃ type ∈ names, s = type.toList ∨ type.toList ++ ['$'] <+: s

theorem coversImport_ofTypes_iff_segments (hnames : ∀ type ∈ names, '.' ∉ type.toList) :
    (ofTypes package names feature).coversImport name = true ↔ NamesType package names name := by
  rw [coversImport_ofTypes_iff]
  constructor
  · intro h
    obtain ⟨member, hname, type, htype, hmeets⟩ := h
    obtain ⟨s, ss, hmember⟩ := List.exists_cons_of_ne_nil (Text.segments_ne_nil member)
    exact ⟨s, ss, Text.segments_eq_append_iff.2 ⟨member, hname, hmember⟩, type, htype,
      (Text.meets_iff_segment (hnames type htype) hmember).1 hmeets⟩
  · intro h
    obtain ⟨s, ss, hname, type, htype, hsegment⟩ := h
    obtain ⟨member, hname, hmember⟩ := Text.segments_eq_append_iff.1 hname
    exact ⟨member, hname, type, htype,
      (Text.meets_iff_segment (hnames type htype) hmember).2 hsegment⟩

/-! ## Siblings

They share the first letters, and go on with something else than a dot. -/

theorem coversImport_sibling {r : Rule} {c : Char} {rest : List Char} (hc : c ≠ '.')
    (hname : name.toList = r.package.toList ++ c :: rest) : r.coversImport name = false := by
  rw [coversImport, Text.after?_eq_some_iff.2 hname]
  cases r.scope with
  | package => simp [Text.endsOrMeets, hc]
  | types names => simp [hc]

theorem coversImport_sibling_type {type : String} {c : Char} {rest : List Char} (hc : c ≠ '.')
    (hmark : c ≠ '$')
    (hname : name.toList = package.toList ++ '.' :: (type.toList ++ c :: rest)) :
    (ofTypes package [type] feature).coversImport name = false := by
  rw [← Bool.not_eq_true, coversImport_ofTypes_iff]
  intro h
  obtain ⟨member, hmember, type', htype, tail, htail, hmeets⟩ := h
  rw [List.mem_singleton.1 htype] at htail
  rw [hname, htail] at hmember
  have heq : c :: rest = tail :=
    List.append_cancel_left (List.cons.inj (List.append_cancel_left hmember)).2
  rw [← heq] at hmeets
  simp [Text.endsOrMeets, hc, hmark] at hmeets

theorem coversOnDemand_sibling {r : Rule} {c : Char} {rest : List Char} (hc : c ≠ '.')
    (hpackage : r.package.toList = package.toList ++ c :: rest) :
    r.coversOnDemand package = false := by
  rw [coversOnDemand, Text.after?_eq_some_iff.2 hpackage]
  simp [Text.endsOrMeets, hc]

/-- **Rules go by segments.** A package rule covers the names whose segments begin with those of the
package. A type rule, of types without dots, covers the names that have one of its types, or a class
nested in one, as the segment behind those of the package. An on-demand import reaches the rules
whose package has segments that begin with those of the imported one. So packages and types that
share no more than their first letters do not meet the rule of the other. -/
theorem covers_iff_segments :
    (∀ package feature name, (ofPackage package feature).coversImport name = true ↔
      Text.segments package.toList <+: Text.segments name.toList) ∧
    (∀ package names feature name, (∀ type ∈ names, '.' ∉ type.toList) →
      ((ofTypes package names feature).coversImport name = true ↔
        NamesType package names name)) ∧
    (∀ (r : Rule) package, r.coversOnDemand package = true ↔
      Text.segments package.toList <+: Text.segments r.package.toList) ∧
    (∀ (r : Rule) (name : String) c rest, c ≠ '.' →
      name.toList = r.package.toList ++ c :: rest → r.coversImport name = false) ∧
    (∀ package type feature (name : String) c rest, c ≠ '.' → c ≠ '$' →
      name.toList = package.toList ++ '.' :: (type.toList ++ c :: rest) →
        (ofTypes package [type] feature).coversImport name = false) ∧
    ∀ (r : Rule) package c rest, c ≠ '.' →
      r.package.toList = package.toList ++ c :: rest → r.coversOnDemand package = false := by
  refine ⟨?_, ?_, ?_, ?_, ?_, ?_⟩
  · intro package feature name
    rw [coversImport_ofPackage_iff, Text.segments_prefix_iff]
  · intro package names feature name hnames
    exact coversImport_ofTypes_iff_segments hnames
  · intro r package
    rw [coversOnDemand_iff, Text.segments_prefix_iff]
  · intro r name c rest hc hname
    exact coversImport_sibling hc hname
  · intro package type feature name c rest hc hmark hname
    exact coversImport_sibling_type hc hmark hname
  · intro r package c rest hc hpackage
    exact coversOnDemand_sibling hc hpackage

/-- A class nested in `Optional` is covered, and `Optionals` and the package `java.utility` are
not. -/
theorem covers_optional :
    NamesType "java.util" ["Optional", "OptionalInt"] "java.util.Optional$Kind.of" ∧
    (ofTypes "java.util" ["Optional", "OptionalInt"] .optional).coversImport
      "java.util.Optional$Kind.of" = true ∧
    (ofTypes "java.util" ["Optional"] .optional).coversImport "java.util.Optionals" = false ∧
    (ofPackage "java.util" .optional).coversImport "java.utility" = false ∧
    (ofPackage "java.utility" .optional).coversOnDemand "java.util" = false := by
  obtain ⟨-, htypes, -, hsibling, hsiblingType, hsiblingPackage⟩ := covers_iff_segments
  have hnested : NamesType "java.util" ["Optional", "OptionalInt"] "java.util.Optional$Kind.of" :=
    ⟨"Optional$Kind".toList, ["of".toList], rfl, "Optional", List.mem_cons_self,
      .inr ⟨"Kind".toList, rfl⟩⟩
  refine ⟨hnested, (htypes _ _ _ _ ?_).2 hnested, ?_, ?_, ?_⟩
  · decide
  · exact hsiblingType _ _ _ _ 's' [] (by decide) (by decide) rfl
  · exact hsibling _ _ 'i' "ty".toList (by decide) rfl
  · exact hsiblingPackage _ _ 'i' "ty".toList (by decide) rfl

end Rule

end MinimumRelease
