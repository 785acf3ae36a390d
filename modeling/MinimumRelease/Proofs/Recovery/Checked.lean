import MinimumRelease.Proofs.Recovery.Rearrangement

/-! # The scanner with every access checked

The scanner takes lists apart and counts with natural numbers, so nothing in it
can fail. That hides what could: a counter that is lowered at zero, or an index
at which nothing stands. Here the scanner is written as a machine that keeps
its open braces in a list of frames, notes what is pending as indices into a
list of drafts, and stops with a `Fault` wherever one of these goes wrong.

Each state of the machine is one of the scanner (`Progress.of`), and so the
machine never stops with a fault and finds what the scanner finds
(`checkedSpans_eq`). -/

namespace MinimumRelease.Recovery

open Token

/-- What can go wrong. -/
inductive Fault where
  /-- A counter would go below zero. -/
  | underflow
  /-- Nothing stands at an index. -/
  | index
  /-- The ends of a slice are out of order, out of range or inside a character. -/
  | slice
deriving DecidableEq

/-- A result, or what went wrong on the way to it. -/
abbrev Checked (α : Type) := Except Fault α

namespace Checked

variable {α : Type}

def pred : Nat → Checked Nat
  | 0 => .error .underflow
  | n + 1 => .ok n

def get (xs : List α) (i : Nat) : Checked α :=
  match xs[i]? with
  | some x => .ok x
  | none => .error .index

def modify (xs : List α) (i : Nat) (f : α → α) : Checked (List α) :=
  if i < xs.length then .ok (xs.modify i f) else .error .index

theorem modify_length_append (as bs : List α) (x : α) (f : α → α) :
    modify (as ++ x :: bs) as.length f = .ok (as ++ f x :: bs) := by
  rw [modify, if_pos (by simp)]
  congr 1
  induction as with
  | nil => rfl
  | cons a as ih => exact congrArg (a :: ·) ih

/-! ## Looking ahead -/

/-- Looks for the mark that closes `depth` open pairs. The depth is lowered before it is looked
at. -/
def closing (o c : Char) (depth : Nat) : List Placed → Checked (Option (Nat × List Placed))
  | [] => .ok none
  | (t, i) :: ts =>
    if t.mark? = some o then closing o c (depth + 1) ts
    else if t.mark? = some c then do
      let depth ← pred depth
      if depth = 0 then .ok (some (i + 1, ts)) else closing o c depth ts
    else closing o c depth ts

-- without an opening mark
example : closing '{' '}' 0 [(⟨.mark, ['}']⟩, 0)] = .error .underflow := rfl

/-- Inside a pair the depth stays above zero. -/
theorem closing_of_pos (o c : Char) {d : Nat} (hd : 0 < d) (ts : List Placed) :
    closing o c d ts = .ok (closing? o c d ts) := by
  induction ts generalizing d with
  | nil => rfl
  | cons p ts ih =>
    obtain ⟨t, i⟩ := p
    obtain ⟨n, rfl⟩ : ∃ n, d = n + 1 := ⟨d - 1, by omega⟩
    rw [closing, closing?]
    split
    · exact ih (Nat.succ_pos _)
    · split
      · by_cases hn : n = 0
        · rw [if_pos (by omega)]
          exact if_pos hn
        · rw [if_neg (by omega)]
          exact (if_neg hn).trans (ih (Nat.pos_of_ne_zero hn))
      · exact ih hd

/-- So it does from an opening mark on. -/
theorem closing_of_markOf? {o c : Char} {ts : List Placed} (h : markOf? ts = some o) :
    closing o c 0 ts = .ok (closing? o c 0 ts) := by
  obtain ⟨t, i, rest, rfl, ht⟩ := exists_cons_of_markOf? h
  rw [closing, closing?, if_pos ht, if_pos ht]
  exact closing_of_pos o c Nat.one_pos rest

/-- Recognises `Name … { … }` behind the keyword of a declaration. -/
def recognise (kind : LocalKind) (afterKeyword : List Placed) : Checked (Option Recognised) :=
  match wordOf? afterKeyword with
  | none => .ok none
  | some name =>
    if kind.fits afterKeyword.tail then
      match body? afterKeyword.tail with
      | none => .ok none
      | some body => do
        let found ← closing '{' '}' 0 body
        .ok (found.map fun r => ⟨name, r.1, r.2⟩)
    else .ok none

theorem recognise_eq (kind : LocalKind) (ts : List Placed) :
    recognise kind ts = .ok (recognise? kind ts) := by
  rw [recognise, recognise?]
  cases wordOf? ts with
  | none => rfl
  | some name =>
    simp only
    by_cases hfit : kind.fits ts.tail = true
    · rw [if_pos hfit, if_pos hfit]
      cases hb : body? ts.tail with
      | none => rfl
      | some body =>
        have hclosing := closing_of_markOf? (c := '}') (body?_eq_some_iff.1 hb).1
        simp only [hclosing, Option.bind_some]
        cases closing? '{' '}' 0 body <;> rfl
    · rw [if_neg hfit, if_neg hfit]

/-- The tokens behind an annotation, given those behind its `@`. -/
def annotationRest : List Placed → Checked (Option (List Placed))
  | [] => .ok none
  | (t, _) :: ts =>
    match t.word? with
    | none => .ok none
    | some word =>
      if word = "interface".toList then .ok none
      else
        match qualifiedRest? ts with
        | none => .ok none
        | some rest =>
          if markOf? rest = some '(' then do
            let found ← closing '(' ')' 0 rest
            .ok (found.map (·.2))
          else .ok (some rest)

theorem annotationRest_eq (ts : List Placed) :
    annotationRest ts = .ok (annotationRest? ts) := by
  cases ts with
  | nil => rfl
  | cons p ts =>
    obtain ⟨t, i⟩ := p
    rw [annotationRest, annotationRest?]
    cases t.word? with
    | none => rfl
    | some word =>
      simp only
      split
      · rfl
      · cases qualifiedRest? ts with
        | none => rfl
        | some rest =>
          simp only
          split
          · next hp =>
            rw [closing_of_markOf? hp]
            rfl
          · rfl

/-! ## The machine -/

/-- An open brace. -/
structure Frame where
  brace : Brace
  /-- Which drafts wait for this brace to be closed. -/
  pending : List Nat

/-- A declaration that was found, and the brace that it moves to once that is known. -/
structure Draft where
  move : Move
  target : Option Nat

namespace Draft

def span? (d : Draft) : Option Span := d.target.map (⟨d.move, ·⟩)

/-- A move whose brace is not known yet. -/
def ofMove (m : Move) : Draft := ⟨m, none⟩

/-- A move whose brace is known. -/
def ofSpan (s : Span) : Draft := ⟨s.move, some s.target⟩

theorem filterMap_span? (spans : List Span) (ms : List Move) :
    (spans.map ofSpan ++ ms.map ofMove).filterMap span? = spans := by
  have hspans : span? ∘ ofSpan = some := rfl
  have hmoves : span? ∘ ofMove = fun _ => none := rfl
  rw [List.filterMap_append, List.filterMap_map, List.filterMap_map, hspans, hmoves]
  simp

end Draft

structure Progress where
  /-- The open braces, outermost first. -/
  frames : List Frame := []
  header : Header := {}
  drafts : List Draft := []

/-- Whether the innermost brace holds code and the outermost one of several a type body. -/
def inCode (frames : List Frame) : Checked Bool :=
  if 2 ≤ frames.length then do
    let outer ← get frames 0
    .ok (outer.brace = .typeBody && frames.getLast?.any (·.brace = .code))
  else .ok false

/-- The declaration that the word `t` introduces at the start of a statement in code. -/
def localDeclaration (s : Progress) (t : Token) (rest : List Placed) :
    Checked (Option (LocalKind × Recognised)) :=
  match t.word?.bind LocalKind.ofKeyword? with
  | none => .ok none
  | some kind => do
    let code ← inCode s.frames
    if code && s.header.onlyModifiers then do
      let found ← recognise kind rest
      .ok (found.map (kind, ·))
    else .ok none

/-- The drafts at the indices `pending` move to the brace at position `i`. -/
def aim (i : Nat) (drafts : List Draft) : List Nat → Checked (List Draft)
  | [] => .ok drafts
  | k :: pending => do
    let drafts ← modify drafts k ({ · with target := some i })
    aim i drafts pending

/-- A closing brace at position `i`. -/
def Progress.close (s : Progress) (i : Nat) : Checked Progress :=
  match s.frames.getLast? with
  | none => .ok { s with header := {} }
  | some frame =>
    if s.frames.dropLast.isEmpty then do
      let drafts ← aim i s.drafts frame.pending
      .ok ⟨[], {}, drafts⟩
    else .ok { s with frames := s.frames.dropLast, header := {} }

/-- A declaration that waits for the outermost brace to be closed. -/
def Progress.note (s : Progress) (m : Move) : Checked Progress := do
  let drafts := s.drafts ++ [.ofMove m]
  let k ← pred drafts.length
  let frames ← modify s.frames 0 fun f => { f with pending := f.pending ++ [k] }
  .ok ⟨frames, {}, drafts⟩

/-- Reads the token `t` at position `i` before `rest`, and what belongs to it. -/
def step (s : Progress) (t : Token) (i : Nat) (rest : List Placed) :
    Checked (Progress × List Placed) :=
  match t.mark? with
  | some '{' => .ok ({ s with frames := s.frames ++ [⟨s.header.opens, []⟩], header := {} }, rest)
  | some '}' => do
    let s ← s.close i
    .ok (s, rest)
  | some ';' => .ok ({ s with header := {} }, rest)
  | some '@' => do
    match ← annotationRest rest with
    | some after => .ok ({ s with header := s.header.addMarkup i }, after)
    | none => .ok ({ s with header := s.header.addOther i (some '@') }, rest)
  | some c => .ok ({ s with header := s.header.addOther i (some c) }, rest)
  | none => do
    match ← localDeclaration s t rest with
    | some (kind, found) =>
      let s ← s.note ⟨s.header.first.getD i, found.stop, kind, found.name⟩
      .ok (s, found.rest)
    | none =>
      match t.word? with
      | some word =>
        .ok ({ s with header := s.header.addWord i word (wordOf? rest).isSome }, rest)
      | none => .ok ({ s with header := s.header.addOther i none }, rest)

theorem localDeclaration_eq {s : Progress} {code : Bool} (hcode : inCode s.frames = .ok code)
    (t : Token) (rest : List Placed) : localDeclaration s t rest =
      .ok (if code && s.header.onlyModifiers then
        (t.word?.bind LocalKind.ofKeyword?).bind fun kind => (recognise? kind rest).map (kind, ·)
      else none) := by
  rw [localDeclaration]
  cases t.word?.bind LocalKind.ofKeyword? with
  | none => simp
  | some kind =>
    simp only [hcode, recognise_eq, Option.bind_some]
    show (if code && s.header.onlyModifiers then _ else _) = _
    split <;> rfl

theorem exists_of_bind_eq_ok {α β : Type} {x : Checked α} {f : α → Checked β} {y : β}
    (h : x >>= f = .ok y) : ∃ a, x = .ok a ∧ f a = .ok y := by
  cases x with
  | error e => cases h
  | ok a => exact ⟨a, rfl, h⟩

/-- A step passes over tokens and puts none back. -/
theorem length_le_of_step {s s' : Progress} {t : Token} {i : Nat} {rest rest' : List Placed}
    (h : step s t i rest = .ok (s', rest')) : rest'.length ≤ rest.length := by
  unfold step at h
  split at h
  · cases h
    exact Nat.le_refl _
  · obtain ⟨_, -, h⟩ := exists_of_bind_eq_ok h
    cases h
    exact Nat.le_refl _
  · cases h
    exact Nat.le_refl _
  · rw [annotationRest_eq] at h
    obtain ⟨after?, hafter, h⟩ := exists_of_bind_eq_ok h
    cases hafter
    split at h
    · next hr =>
      cases h
      exact length_le_of_annotationRest? hr
    · cases h
      exact Nat.le_refl _
  · cases h
    exact Nat.le_refl _
  · obtain ⟨found?, hfound, h⟩ := exists_of_bind_eq_ok h
    split at h
    · next kind found =>
      obtain ⟨_, -, h⟩ := exists_of_bind_eq_ok h
      cases h
      rw [localDeclaration] at hfound
      split at hfound
      · cases hfound
      · obtain ⟨code, -, hfound⟩ := exists_of_bind_eq_ok hfound
        split at hfound
        · rw [recognise_eq] at hfound
          obtain ⟨r, hr, he⟩ := Option.map_eq_some_iff.1 (Except.ok.inj hfound)
          cases he
          exact length_le_of_recognise? hr
        · cases hfound
    · split at h
      · cases h
        exact Nat.le_refl _
      · cases h
        exact Nat.le_refl _

/-- Reads all tokens. Drafts whose brace was not closed are dropped in the end. -/
def run (s : Progress) : List Placed → Checked (List Span)
  | [] => .ok (s.drafts.filterMap Draft.span?)
  | (t, i) :: rest =>
    match _h : step s t i rest with
    | .error e => .error e
    | .ok (s', rest') => run s' rest'
termination_by ts => ts.length
decreasing_by exact Nat.lt_succ_of_le (length_le_of_step _h)

theorem run_of_step {s s' : Progress} {t : Token} {i : Nat} {rest rest' : List Placed}
    (h : step s t i rest = .ok (s', rest')) : run s ((t, i) :: rest) = run s' rest' := by
  rw [run]
  split
  · next he =>
    rw [h] at he
    cases he
  · next he =>
    rw [h] at he
    cases he
    rfl

/-! ## States of the scanner -/

/-- The frames of the braces `b`, innermost first, where only the outermost has something
pending. -/
def framesOf (pending : List Nat) : List Brace → List Frame
  | [] => []
  | [a] => [⟨a, pending⟩]
  | a :: b => framesOf pending b ++ [⟨a, []⟩]

theorem framesOf_cons {b : List Brace} (hb : b ≠ []) (pending : List Nat) (a : Brace) :
    framesOf pending (a :: b) = framesOf pending b ++ [⟨a, []⟩] := by
  cases b with
  | nil => exact absurd rfl hb
  | cons a' b => rfl

theorem length_framesOf (pending : List Nat) (b : List Brace) :
    (framesOf pending b).length = b.length := by
  fun_induction framesOf pending b with
  | case1 => rfl
  | case2 => rfl
  | case3 a b _ ih => rw [List.length_append, ih]; rfl

/-- The outermost brace has index zero. -/
theorem getElem?_framesOf (pending : List Nat) (b : List Brace) :
    (framesOf pending b)[0]? = b.getLast?.map (⟨·, pending⟩) := by
  fun_induction framesOf pending b with
  | case1 => rfl
  | case2 => rfl
  | case3 a b hb ih =>
    have hpos : 0 < (framesOf pending b).length := by
      rw [length_framesOf]
      exact List.length_pos_iff.2 hb
    rw [List.getElem?_append_left hpos, ih, List.getLast?_cons_of_ne_nil hb]

/-- The innermost brace has the last index. -/
theorem getLast?_framesOf (pending : List Nat) (b : List Brace) :
    (framesOf pending b).getLast?.map (·.brace) = b.head? := by
  fun_induction framesOf pending b with
  | case1 => rfl
  | case2 => rfl
  | case3 a b _ ih => simp

theorem inCode_framesOf (pending : List Nat) (b : List Brace) :
    inCode (framesOf pending b) = .ok (Recovery.inCode b) := by
  rw [inCode, length_framesOf, Recovery.inCode]
  by_cases hlen : 2 ≤ b.length
  · obtain ⟨outer, houter⟩ : ∃ outer, b.getLast? = some outer :=
      ⟨_, List.getLast?_eq_some_getLast (List.ne_nil_of_length_pos (by omega))⟩
    have hlast : (framesOf pending b).getLast?.any (·.brace = .code) =
        (b.head? = some .code : Bool) := by
      rw [← getLast?_framesOf pending b]
      cases (framesOf pending b).getLast? <;> simp
    have hget : get (framesOf pending b) 0 = .ok ⟨outer, pending⟩ := by
      rw [get, getElem?_framesOf, houter]
      rfl
    rw [if_pos hlen, hget, hlast, houter]
    simp [hlen, Bool.and_comm, bind, Except.bind]
  · simp [hlen]

/-- What waits for the outermost brace waits at index zero. -/
theorem modify_framesOf {b : List Brace} (hb : b ≠ []) (pending : List Nat) (k : Nat) :
    modify (framesOf pending b) 0 (fun f => { f with pending := f.pending ++ [k] }) =
      .ok (framesOf (pending ++ [k]) b) := by
  have hpos : 0 < (framesOf pending b).length := by
    rw [length_framesOf]
    exact List.length_pos_iff.2 hb
  rw [modify, if_pos hpos]
  congr 1
  fun_induction framesOf pending b with
  | case1 => exact absurd rfl hb
  | case2 => rfl
  | case3 a b hne ih =>
    rw [framesOf_cons hne, ← ih hne (by rw [length_framesOf]; exact List.length_pos_iff.2 hne)]
    cases hf : framesOf pending b with
    | nil =>
      have hlen := length_framesOf pending b
      rw [hf] at hlen
      exact absurd (List.length_eq_zero_iff.1 hlen.symm) hne
    | cons f fs => rfl

/-- The indices of what is pending are those of the drafts without a brace, and these are the
last ones. -/
theorem aim_eq (i : Nat) (settled : List Span) (p : List Move) :
    aim i (settled.map Draft.ofSpan ++ p.map Draft.ofMove) (List.range' settled.length p.length) =
      .ok ((settled ++ Destination.spans ⟨i, p⟩).map Draft.ofSpan) := by
  induction p generalizing settled with
  | nil => simp [aim, Destination.spans]
  | cons m p ih =>
    let settled' := settled ++ [⟨m, i⟩]
    have hlen : settled'.length = settled.length + 1 := List.length_append
    have hmodify : modify (settled.map Draft.ofSpan ++ (m :: p).map Draft.ofMove) settled.length
        (fun d => { d with target := some i }) =
          .ok (settled'.map Draft.ofSpan ++ p.map Draft.ofMove) := by
      have h := modify_length_append (settled.map Draft.ofSpan) (p.map Draft.ofMove) (.ofMove m)
        fun d => { d with target := some i }
      rw [List.length_map] at h
      rw [List.map_cons, h]
      simp [settled', Draft.ofMove, Draft.ofSpan]
    have hspans : settled ++ Destination.spans ⟨i, m :: p⟩ =
        settled' ++ Destination.spans ⟨i, p⟩ := by
      simp [settled', Destination.spans]
    rw [List.length_cons, List.range'_succ, aim, hmodify, hspans, ← hlen]
    exact ih settled'

/-- The state of the machine when the scanner has the braces `b`, the header `h` and the pending
moves `p`, and has listed `settled`. -/
def Progress.of (settled : List Span) (b : List Brace) (h : Header) (p : List Move) : Progress :=
  ⟨framesOf (List.range' settled.length p.length) b, h,
    settled.map Draft.ofSpan ++ p.map Draft.ofMove⟩

variable {settled : List Span} {b : List Brace} {h : Header} {p : List Move}

theorem localDeclaration_of (t : Token) (rest : List Placed) :
    localDeclaration (Progress.of settled b h p) t rest =
      .ok (localDeclaration? b h t rest) := by
  rw [localDeclaration_eq (inCode_framesOf _ b), localDeclaration?]
  cases t.word?.bind LocalKind.ofKeyword? <;> rfl

/-- A declaration is noted at an index that exists, in a frame that exists. -/
theorem note_of (hb : b ≠ []) (m : Move) : (Progress.of settled b h p).note m =
    .ok (Progress.of settled b {} (p ++ [m])) := by
  have hpred : pred (settled.map Draft.ofSpan ++ p.map Draft.ofMove ++ [Draft.ofMove m]).length =
      .ok (settled.length + p.length) := by
    rw [List.length_append, List.length_append, List.length_map, List.length_map]
    rfl
  have hrange : List.range' settled.length p.length ++ [settled.length + p.length] =
      List.range' settled.length (p ++ [m]).length := by
    rw [List.length_append, List.length_singleton, List.range'_concat, Nat.one_mul]
  have hdrafts : settled.map Draft.ofSpan ++ p.map Draft.ofMove ++ [.ofMove m] =
      settled.map Draft.ofSpan ++ (p ++ [m]).map Draft.ofMove := by
    simp
  show (pred (settled.map Draft.ofSpan ++ p.map Draft.ofMove ++ [Draft.ofMove m]).length >>= _) = _
  rw [hpred]
  show (modify (framesOf _ b) 0 _ >>= _) = _
  rw [modify_framesOf hb, hrange]
  show Except.ok (Progress.mk _ {} (settled.map Draft.ofSpan ++ p.map Draft.ofMove ++ [_])) = _
  rw [hdrafts]
  rfl

/-- Every pending declaration is given its brace when the outermost one is closed. -/
theorem close_of_outermost (a : Brace) (i : Nat) : (Progress.of settled [a] h p).close i =
    .ok (Progress.of (settled ++ Destination.spans ⟨i, p⟩) [] {} []) := by
  show (aim i _ (List.range' settled.length p.length) >>= _) = _
  rw [Progress.of, aim_eq]
  simp [Progress.of, framesOf, bind, Except.bind]

theorem close_of_inner (a a' : Brace) (i : Nat) :
    (Progress.of settled (a :: a' :: b) h p).close i =
      .ok (Progress.of settled (a' :: b) {} p) := by
  have hne : framesOf (List.range' settled.length p.length) (a' :: b) ≠ [] := by
    intro hnil
    have hlen := length_framesOf (List.range' settled.length p.length) (a' :: b)
    rw [hnil] at hlen
    cases hlen
  rw [Progress.close]
  simp [Progress.of, framesOf, hne]

theorem step_of_advance {t : Token} {i : Nat} {rest : List Placed} {h' : Header}
    {ys : List Placed} (ha : Advance b h ((t, i) :: rest) h' ys) :
    step (Progress.of settled b h p) t i rest = .ok (Progress.of settled b h' p, ys) := by
  cases ha with
  | markup ht hr =>
    simp only [step, ht, annotationRest_eq, hr]
    rfl
  | loneAt ht hr =>
    simp only [step, ht, annotationRest_eq, hr]
    rfl
  | mark ht hs hc =>
    simp only [Token.stops, ht, Option.some.injEq, Bool.or_eq_false_iff,
      decide_eq_false_iff_not] at hs
    simp only [step, ht]
    split
    · next heq => exact absurd (Option.some.inj heq) hs.1.2
    · next heq => exact absurd (Option.some.inj heq) hs.2
    · next heq => exact absurd (Option.some.inj heq) hs.1.1
    · next heq => exact absurd (Option.some.inj heq) hc
    · next heq =>
      cases heq
      rfl
    · next heq => cases heq
  | word hw hf =>
    simp only [step, mark?_eq_none_of_word hw, localDeclaration_of, hf, hw]
    rfl
  | literal hm hw =>
    have hf : localDeclaration? b h t rest = none := by
      cases hfound : localDeclaration? b h t rest with
      | none => rfl
      | some r =>
        obtain ⟨w, hword⟩ := exists_word_of_found hfound
        rw [hw] at hword
        cases hword
    simp only [step, hm, localDeclaration_of, hf, hw]
    rfl

end Checked

open Checked in
/-- **The machine does what the scanner does.** Nothing is pending outside all braces, so that a
frame for the first brace begins with nothing. -/
theorem Scan.run_eq {b h p xs ds} (s : Scan b h p xs ds) : ∀ settled, (b = [] → p = []) →
    run (Progress.of settled b h p) xs = .ok (settled ++ ds.flatMap Destination.spans) := by
  induction s with
  | @nil b h p =>
    intro settled _
    rw [run]
    show Except.ok ((settled.map Draft.ofSpan ++ p.map Draft.ofMove).filterMap _) = _
    rw [Draft.filterMap_span?, List.flatMap_nil, List.append_nil]
  | @opening b h p t i rest ds ht _ ih =>
    intro settled hp
    have hstep : step (Progress.of settled b h p) t i rest =
        .ok (Progress.of settled (h.opens :: b) {} p, rest) := by
      simp only [step, ht]
      cases b with
      | nil =>
        rw [hp rfl]
        rfl
      | cons a b => rfl
    rw [run_of_step hstep]
    exact ih settled (by simp)
  | @stray h p t i rest ds ht _ ih =>
    intro settled hp
    have hstep : step (Progress.of settled [] h p) t i rest =
        .ok (Progress.of settled [] {} p, rest) := by
      simp only [step, ht]
      rfl
    rw [run_of_step hstep]
    exact ih settled hp
  | @outermost a h p t i rest ds ht _ ih =>
    intro settled hp
    have hstep : step (Progress.of settled [a] h p) t i rest =
        .ok (Progress.of (settled ++ Destination.spans ⟨i, p⟩) [] {} [], rest) := by
      simp only [step, ht, close_of_outermost]
      rfl
    rw [run_of_step hstep, ih _ (by simp), List.flatMap_cons, List.append_assoc]
  | @inner a a' b h p t i rest ds ht _ ih =>
    intro settled hp
    have hstep : step (Progress.of settled (a :: a' :: b) h p) t i rest =
        .ok (Progress.of settled (a' :: b) {} p, rest) := by
      simp only [step, ht, close_of_inner]
      rfl
    rw [run_of_step hstep]
    exact ih settled (by simp)
  | @semicolon b h p t i rest ds ht _ ih =>
    intro settled hp
    have hstep : step (Progress.of settled b h p) t i rest =
        .ok (Progress.of settled b {} p, rest) := by
      simp only [step, ht]
      rfl
    rw [run_of_step hstep]
    exact ih settled hp
  | advance ha _ ih =>
    intro settled hp
    obtain ⟨t, i, mid, rfl, -⟩ := ha.split
    exact (run_of_step (step_of_advance ha)).trans (ih settled hp)
  | @found b h p t i rest kind r ds hf _ ih =>
    intro settled hp
    obtain ⟨w, hw⟩ := exists_word_of_found hf
    have hb : b ≠ [] := by
      rintro rfl
      cases (localDeclaration?_eq_some hf).1
    have hstep : step (Progress.of settled b h p) t i rest =
        .ok (Progress.of settled b {} (p ++ [⟨h.first.getD i, r.stop, kind, r.name⟩]),
          r.rest) := by
      simp only [step, mark?_eq_none_of_word hw, localDeclaration_of, hf]
      show (Progress.note _ _ >>= _) = _
      rw [note_of hb]
      rfl
    rw [run_of_step hstep]
    exact ih settled fun h => absurd h hb

/-- The declarations that move, found by the machine. -/
def checkedSpans (ts : List Token) : Checked (List Span) := Checked.run {} (codeTokens ts)

/-- **The machine runs into no fault**, and finds what the scanner finds. -/
theorem checkedSpans_eq (ts : List Token) : checkedSpans ts = .ok (spansOf ts) :=
  (scan_destinations [] {} [] (codeTokens ts)).run_eq [] fun _ => rfl

end MinimumRelease.Recovery
