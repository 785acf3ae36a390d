import Mathlib.Data.List.Induction
import MinimumRelease.Proofs.Recovery.HeaderRun

/-! # Blocks of control flow

What a brace opens is decided by the header before it, of which only four facts
are kept. The header of a control-flow statement ends with a parenthesis, like
the creation of an object before its class body, and holds an expression. So the
block behind it counts as code exactly if the expression creates no object and
no word in it reads as a keyword that declares a type (`Plain`). In a block that
counts as code every local declaration at the start of a statement is found, and
in one that counts as the body of a type none is. -/

namespace MinimumRelease.Recovery

open Token

/-! ## Parts of a header -/

/-- What a header consists of. -/
inductive Header.Part where
  /-- A word, and whether another word follows it. -/
  | word (text : List Char) (beforeWord : Bool)
  /-- An annotation with all that belongs to it. -/
  | markup
  /-- A mark, or a literal. -/
  | other (mark : Option Char)
deriving DecidableEq

namespace Header

/-- A keyword that declares a type unless it stands behind a dot. -/
def Part.isTypeKeyword : Part → Bool
  | .word text beforeWord =>
    text = "class".toList || text = "interface".toList || text = "enum".toList ||
      (text = "record".toList && beforeWord)
  | _ => false

/-- The word that creates an object. -/
def Part.isNew : Part → Bool
  | .word text _ => text = "new".toList
  | _ => false

/-- Adds a part that begins at position `i`. -/
def add (h : Header) (i : Nat) : Part → Header
  | .word text beforeWord => h.addWord i text beforeWord
  | .markup => h.addMarkup i
  | .other mark => h.addOther i mark

/-- The header made of the given parts. What it opens does not depend on where they stand. -/
def ofParts (ps : List Part) : Header := ps.foldl (·.add 0) {}

theorem ofParts_concat (ps : List Part) (p : Part) :
    ofParts (ps ++ [p]) = (ofParts ps).add 0 p := by
  rw [ofParts, List.foldl_append]
  rfl

theorem last_add (h : Header) (i : Nat) (p : Part) (c : Char) :
    (h.add i p).last = some c ↔ p = .other (some c) := by
  cases p <;> simp [add, addWord, addMarkup, addOther]

theorem creates_add (h : Header) (i : Nat) (p : Part) :
    (h.add i p).creates = (h.creates || p.isNew) := by
  cases p <;> simp [add, addWord, addMarkup, addOther, Part.isNew]

theorem declaresType_add (h : Header) (i : Nat) (p : Part) :
    (h.add i p).declaresType = (h.declaresType || (p.isTypeKeyword && h.last ≠ some '.')) := by
  cases p <;> simp [add, addWord, addMarkup, addOther, Part.isTypeKeyword]

theorem last_ofParts {ps : List Part} {c : Char} :
    (ofParts ps).last = some c ↔ ps.getLast? = some (.other (some c)) := by
  rcases List.eq_nil_or_concat ps with rfl | ⟨ps, p, rfl⟩
  · simp [ofParts]
  · rw [List.concat_eq_append, ofParts_concat, last_add, List.getLast?_concat, Option.some.injEq]

theorem creates_ofParts (ps : List Part) : (ofParts ps).creates = ps.any (·.isNew) := by
  induction ps using List.reverseRecOn with
  | nil => rfl
  | append_singleton ps p ih =>
    rw [ofParts_concat, creates_add, ih, List.any_append]
    simp

/-- Some keyword among the parts declares a type. -/
def DeclaresType (ps : List Part) : Prop :=
  ∃ before p after, ps = before ++ p :: after ∧ p.isTypeKeyword = true ∧
    before.getLast? ≠ some (.other (some '.'))

theorem declaresType_concat {ps : List Part} {p : Part} :
    DeclaresType (ps ++ [p]) ↔
      DeclaresType ps ∨ p.isTypeKeyword = true ∧ ps.getLast? ≠ some (.other (some '.')) := by
  constructor
  · intro h
    obtain ⟨before, q, after, hs, hq, hdot⟩ := h
    rcases List.eq_nil_or_concat after with rfl | ⟨after, last, rfl⟩
    · obtain ⟨rfl, hqp⟩ := List.append_inj' hs rfl
      obtain rfl := List.singleton_inj.1 hqp
      exact .inr ⟨hq, hdot⟩
    · rw [List.concat_eq_append, ← List.cons_append, ← List.append_assoc] at hs
      exact .inl ⟨before, q, after, (List.append_inj' hs rfl).1, hq, hdot⟩
  · intro h
    rcases h with ⟨before, q, after, rfl, hq, hdot⟩ | ⟨hp, hdot⟩
    · exact ⟨before, q, after ++ [p], by simp, hq, hdot⟩
    · exact ⟨ps, p, [], rfl, hp, hdot⟩

theorem not_declaresType_nil : ¬ DeclaresType [] := by
  intro h
  obtain ⟨before, p, after, hs, -⟩ := h
  cases before <;> cases hs

theorem declaresType_ofParts (ps : List Part) :
    (ofParts ps).declaresType = true ↔ DeclaresType ps := by
  induction ps using List.reverseRecOn with
  | nil =>
    constructor
    · intro h
      cases h
    · intro h
      exact absurd h not_declaresType_nil
  | append_singleton ps p ih =>
    rw [ofParts_concat, declaresType_add, declaresType_concat, ← ih, Bool.or_eq_true,
      Bool.and_eq_true, decide_eq_true_iff, ne_eq, ne_eq, last_ofParts]

/-! ## The header of a control-flow statement -/

/-- The words that begin a control-flow statement with a parenthesised group. -/
def controlWords : List (List Char) :=
  ["if", "while", "for", "switch", "try", "catch", "synchronized"].map String.toList

/-- A word, and behind it the parts of a group in parentheses. -/
def control (word : List Char) (beforeWord : Bool) (group : List Part) : List Part :=
  .word word beforeWord :: .other (some '(') :: (group ++ [.other (some ')')])

/-- What the brace behind such a header opens. -/
def block (word : List Char) (beforeWord : Bool) (group : List Part) : Brace :=
  (ofParts (control word beforeWord group)).opens

/-- Nothing in the group creates an object or reads as a keyword that declares a type. -/
structure Plain (group : List Part) : Prop where
  createsNothing : ∀ p ∈ group, p.isNew = false
  declaresNothing : ¬ DeclaresType group

/-- None of the words means anything to the scanner. -/
theorem of_mem_controlWords {w : List Char} (hw : w ∈ controlWords) :
    (∀ n, (Part.word w n).isTypeKeyword = false ∧ (Part.word w n).isNew = false) ∧
      LocalKind.ofKeyword? w = none ∧ w ∉ localModifiers := by
  revert w
  decide

theorem declaresType_control {w : List Char} (hw : w ∈ controlWords) (n : Bool)
    (group : List Part) : DeclaresType (control w n group) ↔ DeclaresType group := by
  obtain ⟨hword, -⟩ := of_mem_controlWords hw
  -- what stands before the group sets no keyword behind a dot, and declares nothing itself
  have hfront : DeclaresType ([.word w n, .other (some '(')] ++ group) ↔ DeclaresType group := by
    induction group using List.reverseRecOn with
    | nil =>
      have hsplit : ([.word w n, .other (some '(')] ++ [] : List Part) =
          [] ++ [.word w n] ++ [.other (some '(')] := rfl
      rw [hsplit, declaresType_concat, declaresType_concat, (hword n).1]
      simp [Part.isTypeKeyword]
    | append_singleton group p ih =>
      rw [← List.append_assoc, declaresType_concat, declaresType_concat, ih,
        List.getLast?_append]
      cases group.getLast? <;> simp
  have hbehind : control w n group =
      [.word w n, .other (some '(')] ++ group ++ [.other (some ')')] := rfl
  rw [hbehind, declaresType_concat, hfront]
  simp [Part.isTypeKeyword]

theorem block_eq_code_iff {w : List Char} (hw : w ∈ controlWords) (n : Bool)
    (group : List Part) : block w n group = .code ↔ Plain group := by
  obtain ⟨hword, -⟩ := of_mem_controlWords hw
  have hlast : (ofParts (control w n group)).last = some ')' := by
    rw [last_ofParts, control, ← List.cons_append, ← List.cons_append, List.getLast?_concat]
  have hcreates : (ofParts (control w n group)).creates = group.any (·.isNew) := by
    rw [creates_ofParts, control, List.any_cons, (hword n).2, List.any_cons, List.any_append]
    simp [Part.isNew]
  have hopens : block w n group = .code ↔
      ¬ DeclaresType group ∧ group.any (·.isNew) = false := by
    rw [block, opens, hlast, hcreates, ← declaresType_control hw n, ← declaresType_ofParts]
    cases (ofParts (control w n group)).declaresType <;> cases group.any (·.isNew) <;> simp
  rw [hopens, List.any_eq_false]
  constructor
  · intro h
    exact ⟨fun p hp => by simpa using h.2 p hp, h.1⟩
  · intro h
    exact ⟨h.declaresNothing, fun p hp => by simp [h.createsNothing p hp]⟩

/-! ## Reading a header -/

/-- The first part of a header, and the tokens behind it. -/
def nextPart? : List Placed → Option (Part × List Placed)
  | [] => none
  | (t, _) :: rest =>
    if t.stops then none
    else if t.mark? = some '@' then
      match annotationRest? rest with
      | some after => some (.markup, after)
      | none => some (.other (some '@'), rest)
    else
      match t.word? with
      | some w => some (.word w (wordOf? rest).isSome, rest)
      | none => some (.other t.mark?, rest)

/-- The scanner adds the next part to its header, unless a declaration to move begins there. -/
theorem advance_of_nextPart? {xs ys : List Placed} {p : Part} (hn : nextPart? xs = some (p, ys)) :
    ∃ t i rest, xs = (t, i) :: rest ∧ (∀ w n, p = .word w n → t.word? = some w) ∧
      ∀ b h, localDeclaration? b h t rest = none → Advance b h xs (h.add i p) ys := by
  revert hn
  fun_cases nextPart? xs with
  | case1 =>
    intro hn
    cases hn
  | case2 =>
    intro hn
    cases hn
  | case3 t i rest hs ht after ha =>
    intro hn
    cases hn
    exact ⟨t, i, rest, rfl, by simp, fun b h _ => .markup ht ha⟩
  | case4 t i rest hs ht ha =>
    intro hn
    cases hn
    exact ⟨t, i, _, rfl, by simp, fun b h _ => .loneAt ht ha⟩
  | case5 t i rest hs ht w hw =>
    intro hn
    cases hn
    refine ⟨t, i, _, rfl, ?_, fun b h hf => .word hw hf⟩
    intro w' n he
    cases he
    exact hw
  | case6 t i rest hs ht hw =>
    intro hn
    cases hn
    refine ⟨t, i, _, rfl, by simp, fun b h _ => ?_⟩
    cases hm : t.mark? with
    | none => exact .literal hm hw
    | some c =>
      refine .mark hm (by simpa using hs) ?_
      intro hc
      rw [hm, hc] at ht
      exact ht rfl

theorem length_lt_of_nextPart? {xs ys : List Placed} {p : Part}
    (hn : nextPart? xs = some (p, ys)) : ys.length < xs.length := by
  obtain ⟨t, i, rest, rfl, -, ha⟩ := advance_of_nextPart? hn
  obtain ⟨t', i', mid, hs, -⟩ := (ha [] {} (localDeclaration?_of_not_inCode rfl)).split
  rw [hs, List.cons_append, List.length_cons, List.length_append]
  omega

/-- The parts of a header, and the tokens behind it: the next brace or semicolon with all that
follows. -/
def partsOf (xs : List Placed) : List Part × List Placed :=
  match _h : nextPart? xs with
  | none => ([], xs)
  | some (p, rest) => (p :: (partsOf rest).1, (partsOf rest).2)
termination_by xs.length
decreasing_by all_goals exact length_lt_of_nextPart? _h

theorem Alike.add {h h' : Header} (hh : h.Alike h') (i j : Nat) (p : Part) :
    (h.add i p).Alike (h'.add j p) := by
  constructor
  · cases p <;> simp [Header.add, addWord, addMarkup, addOther, hh.onlyModifiers]
  · rw [declaresType_add, declaresType_add, hh.declaresType, hh.last]
  · rw [creates_add, creates_add, hh.creates]
  · cases p <;> rfl

theorem onlyModifiers_add {h : Header} (ho : h.onlyModifiers = false) (i : Nat) (p : Part) :
    (h.add i p).onlyModifiers = false := by
  cases p <;> simp [add, addWord, addMarkup, addOther, ho]

/-- **The scanner reads all parts of a header** in which no declaration can begin any more. -/
theorem passes_partsOf (b : List Brace) {h h' : Header} {xs : List Placed}
    (ho : h.onlyModifiers = false) (hh : h.Alike h') :
    ∃ h₁, Passes b h xs h₁ (partsOf xs).2 ∧ h₁.Alike ((partsOf xs).1.foldl (·.add 0) h') := by
  fun_induction partsOf xs generalizing h h' with
  | case1 xs hn => exact ⟨h, .refl, hh⟩
  | case2 xs p rest hn ih =>
    obtain ⟨t, i, ts, rfl, -, ha⟩ := advance_of_nextPart? hn
    have hf : localDeclaration? b h t ts = none := by
      simp [localDeclaration?, ho]
    obtain ⟨h₁, hp, hh₁⟩ := ih (onlyModifiers_add ho i p) (hh.add i 0 p)
    exact ⟨h₁, .step (ha b h hf) hp, hh₁⟩

end Header

theorem Passes.destinations_eq {b h xs h' ys} (hp : Passes b h xs h' ys) (p : List Move) :
    destinations b h p xs = destinations b h' p ys := by
  induction hp with
  | refl => rfl
  | step ha _ ih => rw [← ih, (Scan.advance ha (scan_destinations _ _ p _)).eq_destinations]

open Header

/-- The block behind a control-flow header is entered with what the parts of that header open. -/
theorem destinations_control {w : List Char} (hw : w ∈ controlWords) {n : Bool}
    {group : List Part} {xs ys : List Placed} {o : Token} {j : Nat}
    (hx : partsOf xs = (control w n group, (o, j) :: ys)) (ho : o.mark? = some '{')
    (b : List Brace) (p : List Move) :
    destinations b {} p xs = destinations (block w n group :: b) {} p ys := by
  obtain ⟨-, hkind, hmod⟩ := of_mem_controlWords hw
  rw [partsOf] at hx
  split at hx
  · cases hx
  · next q rest hn =>
    obtain ⟨hparts, hys⟩ := Prod.mk.inj hx
    obtain ⟨rfl, hgroup⟩ := List.cons.inj hparts
    obtain ⟨t, i, ts, rfl, hword, ha⟩ := advance_of_nextPart? hn
    have hf : localDeclaration? b {} t ts = none := by
      simp [localDeclaration?, hword w n rfl, hkind]
    have hadd : (({} : Header).add i (.word w n)).onlyModifiers = false := by
      simp [Header.add, addWord, hmod]
    have halike : (({} : Header).add i (.word w n)).Alike (({} : Header).add 0 (.word w n)) :=
      Alike.add ⟨rfl, rfl, rfl, rfl⟩ i 0 _
    obtain ⟨h₁, hp, hh⟩ := @passes_partsOf b _ _ rest hadd halike
    rw [hys, hgroup] at *
    have hopens : h₁.opens = block w n group := hh.opens
    rw [(Passes.step (ha b {} hf) hp).destinations_eq p, ← hopens]
    exact (Scan.opening ho (scan_destinations _ _ p ys)).eq_destinations

/-! ## Declarations in the block -/

theorem localDeclaration?_of_recognise? {b : List Brace} {h : Header} {t : Token}
    {rest : List Placed} {kind : LocalKind} {r : Recognised} (hb : inCode b = true)
    (ho : h.onlyModifiers = true) (ht : t.word? = some kind.keyword.toList)
    (hr : recognise? kind rest = some r) : localDeclaration? b h t rest = some (kind, r) := by
  have hkind : LocalKind.ofKeyword? kind.keyword.toList = some kind := by
    cases kind <;> rfl
  simp [localDeclaration?, hb, ho, ht, hkind, hr]

theorem inCode_cons {a : Brace} {b : List Brace} (hb : b.getLast? = some .typeBody) :
    inCode (a :: b) = true ↔ a = .code := by
  cases b with
  | nil => cases hb
  | cons a' b =>
    rw [inCode, List.getLast?_cons_cons, hb]
    simp

/-- **The block of a control-flow statement is code if the parentheses before it are plain, and
only then.** Inside an outermost type it is entered with what its header opens. A declaration at
the start of a statement in the block moves if the parentheses are plain. If they are not, its
keyword is read as any other word. -/
theorem opens_control {w : List Char} (hw : w ∈ controlWords) (n : Bool) (group : List Part) :
    ((ofParts (control w n group)).opens = .code ↔ Plain group) ∧
      ∀ xs o j ys b, partsOf xs = (control w n group, (o, j) :: ys) → o.mark? = some '{' →
        b.getLast? = some .typeBody →
        (∀ p, destinations b {} p xs = destinations (block w n group :: b) {} p ys) ∧
        ∀ h t i rest kind r p, h.onlyModifiers = true →
          t.word? = some (LocalKind.keyword kind).toList → recognise? kind rest = some r →
          (Plain group → destinations (block w n group :: b) h p ((t, i) :: rest) =
            destinations (block w n group :: b) {}
              (p ++ [⟨h.first.getD i, r.stop, kind, r.name⟩]) r.rest) ∧
          (¬ Plain group → destinations (block w n group :: b) h p ((t, i) :: rest) =
            destinations (block w n group :: b)
              (h.addWord i kind.keyword.toList (wordOf? rest).isSome) p rest) := by
  have hcode := block_eq_code_iff hw n group
  refine ⟨hcode, ?_⟩
  intro xs o j ys b hx ho hb
  refine ⟨destinations_control hw hx ho b, ?_⟩
  intro h t i rest kind r p hmod ht hr
  have hin := (@inCode_cons (block w n group) b hb).trans hcode
  constructor
  · intro hplain
    have hf := localDeclaration?_of_recognise? (hin.2 hplain) hmod ht hr
    exact (Scan.found hf (scan_destinations _ _ _ r.rest)).eq_destinations
  · intro hplain
    have hf : localDeclaration? (block w n group :: b) h t rest = none :=
      localDeclaration?_of_not_inCode (Bool.eq_false_iff.2 (mt hin.1 hplain))
    exact (Scan.advance (.word ht hf) (scan_destinations _ _ p rest)).eq_destinations

namespace Guarded

/-- A statement with a local declaration in its block, then the ends of a method and of a type. -/
def called : List Placed :=
  codeTokens (tokens "if (g(B())) \x7b enum E \x7b X \x7d \x7d \x7d \x7d".toList)

/-- The parts of `g(B())`. -/
def call : List Part :=
  [.word "g".toList false, .other (some '('), .word "B".toList false, .other (some '('),
    .other (some ')'), .other (some ')')]

theorem call_moves_enum :
    "if".toList ∈ controlWords ∧
      destinations [.code, .typeBody] {} [] called =
        destinations [.code, .code, .typeBody] {} [⟨13, 22, .enum, ['E']⟩] (called.drop 15) := by
  have hif : "if".toList ∈ controlWords := by decide
  obtain ⟨hcode, hblock⟩ := opens_control hif false call
  have hopens : block "if".toList false call = .code := by decide
  have hparts : partsOf called =
      (control "if".toList false call, (⟨.mark, ['\x7b']⟩, 11) :: called.drop 10) := by
    decide +kernel
  obtain ⟨henter, hmoves⟩ := hblock called _ _ _ [.code, .typeBody] hparts rfl rfl
  have hbody : called.drop 10 = (⟨.word, "enum".toList⟩, 13) :: called.drop 11 := by
    decide +kernel
  have hfound : (recognise? .enum (called.drop 11)).map (fun r => (r.name, r.stop, r.rest)) =
      some (['E'], 22, called.drop 15) := by
    decide +kernel
  obtain ⟨⟨name, stop, rest⟩, hr, hfields⟩ := Option.map_eq_some_iff.1 hfound
  cases hfields
  obtain ⟨hmove, -⟩ := hmoves {} ⟨.word, "enum".toList⟩ 13 _ .enum _ [] rfl rfl hr
  refine ⟨hif, ?_⟩
  rw [henter, hbody, hmove (hcode.1 hopens), hopens]
  rfl

/-- The parts of `g(new B())`. -/
def creation : List Part :=
  [.word "g".toList false, .other (some '('), .word "new".toList true, .word "B".toList false,
    .other (some '('), .other (some ')'), .other (some ')')]

/-- The parts of `record instanceof B`. -/
def typeTest : List Part :=
  [.word "record".toList true, .word "instanceof".toList true, .word "B".toList false]

/-- A local enum in a block behind the given text in parentheses. -/
def guardedEnum (group : String) : String :=
  "class A \x7b void f() \x7b if (" ++ group ++ ") \x7b enum E \x7b X \x7d \x7d \x7d \x7d"

/-- A creation in the parentheses hides what the block declares, and so does a variable that has
the name of a keyword. -/
theorem creation_hides_enum :
    (partsOf (codeTokens (tokens "if (g(new B())) \x7b".toList))).1 =
        control "if".toList false creation ∧
      (partsOf (codeTokens (tokens "if (record instanceof B) \x7b".toList))).1 =
        control "if".toList false typeTest ∧
      (ofParts (control "if".toList false creation)).opens = .typeBody ∧
      (ofParts (control "if".toList false typeTest)).opens = .typeBody ∧
      (relocate (guardedEnum "g(new B())")).moved = [] ∧
      (relocate (guardedEnum "record instanceof B")).moved = [] := by
  refine ⟨?_, ?_, ?_, ?_, ?_, ?_⟩ <;> decide +kernel

end Guarded

end MinimumRelease.Recovery
