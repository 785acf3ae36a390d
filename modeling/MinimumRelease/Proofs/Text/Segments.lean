import MinimumRelease.Text.Dotted

/-! # Segments of dotted names

A dot ends a segment, so the segments of one name begin those of another exactly
if the other is the same text or goes on with a dot (`segments_prefix_iff`). The
first segments of a name tell in the same way with what it goes on behind a text
without dots (`meets_iff_segment`). -/

namespace MinimumRelease.Text

theorem segments_ne_nil (name : List Char) : segments name ≠ [] := by
  unfold segments
  split
  · exact List.cons_ne_nil _ _
  · split
    · exact List.cons_ne_nil _ _
    · split <;> exact List.cons_ne_nil _ _

theorem segments_cons {c : Char} (hc : c ≠ '.') {cs s : List Char} {ss : List (List Char)}
    (h : segments cs = s :: ss) : segments (c :: cs) = (c :: s) :: ss := by
  rw [segments, h]
  exact if_neg hc

theorem segments_dot (cs : List Char) : segments ('.' :: cs) = [] :: segments cs := by
  rw [segments]
  split
  · next h => exact absurd h (segments_ne_nil cs)
  · next h => rw [if_pos rfl, h]

theorem segments_of_notMem {name : List Char} (h : '.' ∉ name) : segments name = [name] := by
  induction name with
  | nil => rfl
  | cons c cs ih =>
    rw [List.mem_cons, not_or] at h
    exact segments_cons (Ne.symm h.1) (ih h.2)

/-- A dot ends a segment. -/
theorem segments_append_dot (lead name : List Char) :
    segments (lead ++ '.' :: name) = segments lead ++ segments name := by
  induction lead with
  | nil => exact segments_dot name
  | cons c lead ih =>
    obtain ⟨s, ss, hlead⟩ := List.exists_cons_of_ne_nil (segments_ne_nil lead)
    rw [hlead, List.cons_append] at ih
    rw [List.cons_append]
    by_cases hc : c = '.'
    · rw [hc, segments_dot, segments_dot, hlead, ih]
      rfl
    · rw [segments_cons hc ih, segments_cons hc hlead]
      rfl

/-! ## Leading segments -/

theorem segments_nil_prefix_iff {name : List Char} :
    segments [] <+: segments name ↔ endsOrMeets ['.'] name = true := by
  cases name with
  | nil => simp [segments, endsOrMeets]
  | cons c cs =>
    by_cases hc : c = '.'
    · subst hc
      simp [segments_dot, segments.eq_1, endsOrMeets, List.cons_prefix_cons]
    · obtain ⟨s, ss, hcs⟩ := List.exists_cons_of_ne_nil (segments_ne_nil cs)
      simp [segments_cons hc hcs, segments.eq_1, endsOrMeets, hc, List.cons_prefix_cons]

theorem segments_cons_prefix_nil {c : Char} {lead : List Char} :
    ¬ segments (c :: lead) <+: segments [] := by
  obtain ⟨s, ss, hlead⟩ := List.exists_cons_of_ne_nil (segments_ne_nil lead)
  by_cases hc : c = '.'
  · subst hc
    simp [segments_dot, hlead, segments.eq_1, List.cons_prefix_cons]
  · simp [segments_cons hc hlead, segments.eq_1, List.cons_prefix_cons]

/-- Characters before segments are compared one by one, and a dot is like any other. -/
theorem segments_cons_prefix_cons {c d : Char} {lead name : List Char} :
    segments (c :: lead) <+: segments (d :: name) ↔
      c = d ∧ segments lead <+: segments name := by
  obtain ⟨s, ss, hlead⟩ := List.exists_cons_of_ne_nil (segments_ne_nil lead)
  obtain ⟨t, ts, hname⟩ := List.exists_cons_of_ne_nil (segments_ne_nil name)
  by_cases hc : c = '.' <;> by_cases hd : d = '.'
  · subst hc hd
    simp [segments_dot, List.cons_prefix_cons]
  · subst hc
    simp [segments_dot, segments_cons hd hname, List.cons_prefix_cons, Ne.symm hd]
  · subst hd
    simp [segments_dot, segments_cons hc hlead, List.cons_prefix_cons, hc]
  · simp [segments_cons hc hlead, segments_cons hd hname, hlead, hname, List.cons_prefix_cons,
      and_assoc]

/-- Segments that begin those of a name are a leading part of it that ends at a dot. -/
theorem segments_prefix_iff {lead name : List Char} : segments lead <+: segments name ↔
    ∃ rest, name = lead ++ rest ∧ endsOrMeets ['.'] rest = true := by
  induction lead generalizing name with
  | nil => simp [segments_nil_prefix_iff]
  | cons c lead ih =>
    cases name with
    | nil => simp [segments_cons_prefix_nil]
    | cons d name =>
      simp only [segments_cons_prefix_cons, ih, List.cons_append, List.cons.injEq, and_assoc,
        exists_and_left]
      rw [eq_comm (a := c)]

/-- What follows leading segments is split by itself. -/
theorem segments_eq_append_iff {lead name s : List Char} {ss : List (List Char)} :
    segments name = segments lead ++ s :: ss ↔
      ∃ rest, name = lead ++ '.' :: rest ∧ segments rest = s :: ss := by
  constructor
  · intro h
    obtain ⟨rest, rfl, hrest⟩ := segments_prefix_iff.1 ⟨s :: ss, h.symm⟩
    cases rest with
    | nil =>
      rw [List.append_nil] at h
      cases List.self_eq_append_right.1 h
    | cons c rest =>
      have hc : c = '.' := by simpa [endsOrMeets] using hrest
      rw [hc, segments_append_dot] at h
      exact ⟨rest, by rw [hc], List.append_cancel_left h⟩
  · intro h
    obtain ⟨rest, rfl, hrest⟩ := h
    rw [segments_append_dot, hrest]

/-- A name goes on behind a text without dots with nothing, a dot or a `mark` exactly if its first
segment is the text, or begins with the text and the mark. -/
theorem meets_iff_segment {mark : Char} {lead name s : List Char} {ss : List (List Char)}
    (hlead : '.' ∉ lead) (hname : segments name = s :: ss) :
    (∃ rest, name = lead ++ rest ∧ endsOrMeets ['.', mark] rest = true) ↔
      s = lead ∨ lead ++ [mark] <+: s := by
  induction lead generalizing name s ss with
  | nil =>
    cases name with
    | nil =>
      cases hname
      simp [endsOrMeets]
    | cons c cs =>
      obtain ⟨t, ts, hcs⟩ := List.exists_cons_of_ne_nil (segments_ne_nil cs)
      by_cases hc : c = '.'
      · subst hc
        rw [segments_dot] at hname
        cases hname
        simp [endsOrMeets]
      · rw [segments_cons hc hcs] at hname
        cases hname
        simp only [endsOrMeets, List.nil_append, List.cons_prefix_cons, List.nil_prefix, and_true,
          List.cons_ne_nil, false_or, exists_eq_left', List.mem_cons, List.not_mem_nil, or_false,
          hc, decide_eq_true_eq]
        exact eq_comm
  | cons d lead ih =>
    rw [List.mem_cons, not_or] at hlead
    cases name with
    | nil =>
      cases hname
      simp
    | cons c cs =>
      obtain ⟨t, ts, hcs⟩ := List.exists_cons_of_ne_nil (segments_ne_nil cs)
      have ih := ih hlead.2 hcs
      by_cases hc : c = '.'
      · subst hc
        rw [segments_dot] at hname
        cases hname
        simp [hlead.1]
      · rw [segments_cons hc hcs] at hname
        cases hname
        simp only [List.cons_append, List.cons.injEq, and_assoc, exists_and_left, ih,
          List.cons_prefix_cons]
        rw [eq_comm (a := d), ← and_or_left]

/-! ## The last segment -/

theorem dot_notMem_lastSegment (name : List Char) : '.' ∉ lastSegment name := by
  intro h
  have hne := List.all_eq_true.1 List.all_takeWhile _ (List.mem_reverse.1 h)
  cases hne

/-- What stands before the last segment ends with a dot. -/
theorem eq_append_lastSegment (name : List Char) :
    name = lastSegment name ∨ ∃ lead, name = lead ++ '.' :: lastSegment name := by
  have hsplit : name = (name.reverse.dropWhile (· ≠ '.')).reverse ++ lastSegment name := by
    rw [lastSegment, ← List.reverse_append, List.takeWhile_append_dropWhile, List.reverse_reverse]
  cases hrest : name.reverse.dropWhile (· ≠ '.') with
  | nil =>
    rw [hrest] at hsplit
    exact .inl hsplit
  | cons c rest =>
    have hc : c = '.' := by
      have hhead := List.head?_dropWhile_not (fun c => decide (c ≠ '.')) name.reverse
      rw [hrest] at hhead
      simpa using hhead
    rw [hrest, hc, List.reverse_cons, List.append_assoc] at hsplit
    exact .inr ⟨rest.reverse, hsplit⟩

theorem getLast?_segments (name : List Char) :
    (segments name).getLast? = some (lastSegment name) := by
  have hlast := segments_of_notMem (dot_notMem_lastSegment name)
  rcases eq_append_lastSegment name with heq | ⟨lead, heq⟩
  · rw [← heq] at hlast ⊢
    rw [hlast]
    rfl
  · have hsegments := segments_append_dot lead (lastSegment name)
    rw [← heq, hlast] at hsegments
    rw [hsegments, List.getLast?_concat]

end MinimumRelease.Text
