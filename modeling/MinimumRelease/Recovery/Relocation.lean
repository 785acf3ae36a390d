import MinimumRelease.Feature
import MinimumRelease.Recovery.Token

/-!
# Relocating local declarations

An `enum`, `interface` or `record` inside executable code is refused by older grammars, which
accept the same declaration as a member of a type. The relocation moves each of them to the end of
the outermost type around it, and puts a placeholder member behind it. What was cut out leaves its
line feeds behind, so that lines before the first insertion keep their numbers.

All work is on the tokens of the text. A move is a range of token positions, and the closing brace
of the outermost type is one more position, so that no move can split a token.
-/

namespace MinimumRelease.Recovery

/-- The kinds of declaration that are moved. -/
inductive LocalKind where
  | enum
  | interface
  | record
deriving DecidableEq

namespace LocalKind

/-- The kind that a keyword introduces. -/
def ofKeyword? (word : List Char) : Option LocalKind :=
  if word = "enum".toList then some .enum
  else if word = "interface".toList then some .interface
  else if word = "record".toList then some .record
  else none

/-- The keyword that introduces the kind. -/
def keyword : LocalKind → String
  | .enum => "enum"
  | .interface => "interface"
  | .record => "record"

/-- The feature that a local declaration of this kind shows. -/
def feature : LocalKind → Feature
  | .enum => .localEnums
  | .interface => .localInterfaces
  | .record => .localRecords

end LocalKind

/-- A token with its position among all tokens of the text. -/
abbrev Placed := Token × Nat

/-- The character of the first token, if that is a mark. -/
def markOf? : List Placed → Option Char
  | [] => none
  | (t, _) :: _ => t.mark?

/-- The text of the first token, if that is a word. -/
def wordOf? : List Placed → Option (List Char)
  | [] => none
  | (t, _) :: _ => t.word?

/-- Looks for the mark that closes `depth` open pairs of `opening` and `closing`. Gives the
position behind it and the tokens behind it. Only this one pair is counted. -/
def closing? (opening closing : Char) (depth : Nat) : List Placed → Option (Nat × List Placed)
  | [] => none
  | (t, i) :: ts =>
    if t.mark? = some opening then closing? opening closing (depth + 1) ts
    else if t.mark? = some closing then
      if depth ≤ 1 then some (i + 1, ts) else closing? opening closing (depth - 1) ts
    else closing? opening closing depth ts

/-- The tokens from the opening brace of a declaration's body on. A semicolon or a closing brace
before it means that there is no body. -/
def body? : List Placed → Option (List Placed)
  | [] => none
  | (t, i) :: ts =>
    if t.mark? = some '{' then some ((t, i) :: ts)
    else if t.mark? = some ';' || t.mark? = some '}' then none
    else body? ts

/-- Whether what follows the name of a declaration fits its kind. -/
def LocalKind.fits (kind : LocalKind) (afterName : List Placed) : Bool :=
  match kind with
  | .record => markOf? afterName = some '(' || markOf? afterName = some '<'
  | .enum => markOf? afterName = some '{' || wordOf? afterName = some "implements".toList
  | .interface =>
    markOf? afterName = some '{' || markOf? afterName = some '<' ||
      wordOf? afterName = some "extends".toList

/-- A declaration that was recognised behind its keyword. -/
structure Recognised where
  name : List Char
  /-- Position behind the closing brace. -/
  stop : Nat
  /-- The tokens behind the closing brace. -/
  rest : List Placed

/-- Recognises `Name … { … }` behind the keyword of a declaration. -/
def recognise? (kind : LocalKind) (afterKeyword : List Placed) : Option Recognised :=
  match wordOf? afterKeyword with
  | none => none
  | some name =>
    if kind.fits afterKeyword.tail then
      match (body? afterKeyword.tail).bind (closing? '{' '}' 0) with
      | some (stop, rest) => some ⟨name, stop, rest⟩
      | none => none
    else none

/-- Skips `.Name` any number of times. A dot without a name behind it is no qualified name. -/
def qualifiedRest? : List Placed → Option (List Placed)
  | [] => some []
  | (t, i) :: ts =>
    if t.mark? = some '.' then
      match ts with
      | [] => none
      | (w, _) :: ts => if w.word?.isSome then qualifiedRest? ts else none
    else some ((t, i) :: ts)

/-- The tokens behind an annotation, given those behind its `@`: `Name`, `a.b.Name` or either with
arguments in parentheses. `@interface` declares a type and is no annotation. -/
def annotationRest? : List Placed → Option (List Placed)
  | [] => none
  | (t, _) :: ts =>
    match t.word? with
    | none => none
    | some word =>
      if word = "interface".toList then none
      else
        match qualifiedRest? ts with
        | none => none
        | some rest =>
          if markOf? rest = some '(' then (closing? '(' ')' 0 rest).map (·.2) else some rest

/-- What a brace opens. -/
inductive Brace where
  /-- The body of a type, an anonymous class included. -/
  | typeBody
  /-- Everything else: methods, initialisers, lambdas, control flow. -/
  | code
deriving DecidableEq

/-- Modifiers that may stand before a local declaration. -/
def localModifiers : List (List Char) :=
  ["final", "abstract", "static", "strictfp"].map String.toList

/-- What was seen since the last `;`, `{` or `}`. -/
structure Header where
  /-- Position of the first token. -/
  first : Option Nat := none
  /-- Nothing but modifiers and annotations so far. -/
  onlyModifiers : Bool := true
  /-- A keyword that declares a type was seen. -/
  declaresType : Bool := false
  /-- The word `new` was seen. -/
  creates : Bool := false
  /-- The last token, if it is a mark. -/
  last : Option Char := none

namespace Header

/-- Adds a word. `record` declares a type only before another word, and no keyword does so behind
a dot. -/
def addWord (h : Header) (i : Nat) (word : List Char) (beforeWord : Bool) : Header :=
  let typeKeyword :=
    word = "class".toList || word = "interface".toList || word = "enum".toList ||
      (word = "record".toList && beforeWord)
  { first := some (h.first.getD i)
    onlyModifiers := h.onlyModifiers && localModifiers.contains word
    declaresType := h.declaresType || (typeKeyword && h.last ≠ some '.')
    creates := h.creates || word = "new".toList
    last := none }

/-- Adds an annotation. It stands among the modifiers. -/
def addMarkup (h : Header) (i : Nat) : Header :=
  { h with first := some (h.first.getD i), last := none }

/-- Adds a mark or a literal. -/
def addOther (h : Header) (i : Nat) (mark : Option Char) : Header :=
  { h with first := some (h.first.getD i), onlyModifiers := false, last := mark }

/-- What a brace behind the header opens: a type body after a declaring keyword, and after `new`
with a closing parenthesis right before the brace. -/
def opens (h : Header) : Brace :=
  if h.declaresType || (h.creates && h.last = some ')') then .typeBody else .code

end Header

/-- A declaration to be moved: its token positions `start` up to `stop`, its kind and name. -/
structure Move where
  start : Nat
  stop : Nat
  kind : LocalKind
  name : List Char

/-- The closing brace of an outermost pair, with the declarations that move before it. -/
structure Destination where
  /-- Position of the brace. -/
  brace : Nat
  moves : List Move

/-- Whether the innermost brace holds code and the outermost one of several a type body. -/
def inCode (braces : List Brace) : Bool :=
  2 ≤ braces.length && braces.head? = some .code && braces.getLast? = some .typeBody

/-- The declaration that the word `t` introduces at the start of a statement in code. -/
def localDeclaration? (braces : List Brace) (header : Header) (t : Token) (rest : List Placed) :
    Option (LocalKind × Recognised) :=
  if inCode braces && header.onlyModifiers then
    match t.word?.bind LocalKind.ofKeyword? with
    | none => none
    | some kind => (recognise? kind rest).map (kind, ·)
  else none

theorem length_le_of_closing? {o c : Char} {d : Nat} {ts rest : List Placed} {i : Nat}
    (h : closing? o c d ts = some (i, rest)) : rest.length ≤ ts.length := by
  fun_induction closing? o c d ts with
  | case1 => simp at h
  | case2 _ t _ ts _ ih => have := ih h; simp only [List.length_cons]; omega
  | case3 => simp only [Option.some.injEq, Prod.mk.injEq] at h; simp [← h.2]
  | case4 _ t _ ts _ _ _ ih => have := ih h; simp only [List.length_cons]; omega
  | case5 _ t _ ts _ _ ih => have := ih h; simp only [List.length_cons]; omega

theorem length_le_of_body? {ts rest : List Placed} (h : body? ts = some rest) :
    rest.length ≤ ts.length := by
  fun_induction body? ts with
  | case1 => simp at h
  | case2 => simp only [Option.some.injEq] at h; simp [← h]
  | case3 => simp at h
  | case4 t _ ts _ _ ih => have := ih h; simp only [List.length_cons]; omega

theorem length_le_of_qualifiedRest? {ts rest : List Placed} (h : qualifiedRest? ts = some rest) :
    rest.length ≤ ts.length := by
  fun_induction qualifiedRest? ts with
  | case1 => simp only [Option.some.injEq] at h; simp [← h]
  | case2 => simp at h
  | case3 => rename_i ih; have := ih h; simp only [List.length_cons]; omega
  | case4 => simp at h
  | case5 => simp only [Option.some.injEq] at h; simp [← h]

theorem length_le_of_annotationRest? {ts rest : List Placed} (h : annotationRest? ts = some rest) :
    rest.length ≤ ts.length := by
  unfold annotationRest? at h
  split at h
  · simp at h
  · split at h
    · simp at h
    · split at h
      · simp at h
      · split at h
        · simp at h
        · rename_i ts _ _ _ _ r hr
          have hle := length_le_of_qualifiedRest? hr
          split at h
          · obtain ⟨⟨i, q⟩, hq, rfl⟩ := Option.map_eq_some_iff.1 h
            have := length_le_of_closing? hq
            simp only [List.length_cons]; omega
          · simp only [Option.some.injEq] at h
            subst h
            simp only [List.length_cons]; omega

theorem length_le_of_recognise? {kind : LocalKind} {ts : List Placed} {r : Recognised}
    (h : recognise? kind ts = some r) : r.rest.length ≤ ts.length := by
  unfold recognise? at h
  split at h
  · simp at h
  · split at h
    · split at h
      · rename_i stop rest hb
        obtain ⟨b, hbody, hclose⟩ := Option.bind_eq_some_iff.1 hb
        have h1 := length_le_of_body? hbody
        have h2 := length_le_of_closing? hclose
        simp only [Option.some.injEq] at h
        subst h
        simp only [List.length_tail] at h1
        simp only; omega
      · simp at h
    · simp at h

theorem length_le_of_localDeclaration? {braces : List Brace} {header : Header} {t : Token}
    {ts : List Placed} {kind : LocalKind} {r : Recognised}
    (h : localDeclaration? braces header t ts = some (kind, r)) : r.rest.length ≤ ts.length := by
  unfold localDeclaration? at h
  split at h
  · split at h
    · simp at h
    · obtain ⟨r', hr, he⟩ := Option.map_eq_some_iff.1 h
      simp only [Prod.mk.injEq] at he
      exact he.2 ▸ length_le_of_recognise? hr
  · simp at h

/-- Reads the tokens that are neither blank nor comment. `braces` holds the braces that are open,
innermost first, and `pending` the declarations found inside the outermost of them. They move
before its closing brace, and stay where they are if that brace is missing. -/
def destinations (braces : List Brace) (header : Header) (pending : List Move) :
    List Placed → List Destination
  | [] => []
  | (t, i) :: rest =>
    match t.mark? with
    | some '{' => destinations (header.opens :: braces) {} pending rest
    | some '}' =>
      match braces with
      | [] => destinations [] {} pending rest
      | [_] => ⟨i, pending⟩ :: destinations [] {} [] rest
      | _ :: braces => destinations braces {} pending rest
    | some ';' => destinations braces {} pending rest
    | some '@' =>
      match _h : annotationRest? rest with
      | some after => destinations braces (header.addMarkup i) pending after
      | none => destinations braces (header.addOther i (some '@')) pending rest
    | some c => destinations braces (header.addOther i (some c)) pending rest
    | none =>
      match _h : localDeclaration? braces header t rest with
      | some (kind, found) =>
        let move : Move := ⟨header.first.getD i, found.stop, kind, found.name⟩
        destinations braces {} (pending ++ [move]) found.rest
      | none =>
        match t.word? with
        | some word =>
          destinations braces (header.addWord i word (wordOf? rest).isSome) pending rest
        | none => destinations braces (header.addOther i none) pending rest
termination_by ts => ts.length
decreasing_by
  all_goals simp only [List.length_cons]
  all_goals first
    | omega
    | exact Nat.lt_succ_of_le (length_le_of_annotationRest? _h)
    | exact Nat.lt_succ_of_le (length_le_of_localDeclaration? _h)

/-- The tokens that are neither blank nor comment, with their positions. -/
def codeTokens (ts : List Token) : List Placed := ts.zipIdx.filter (!·.1.isTrivia)

/-- The text of the tokens at positions `start` up to `stop`. -/
def textBetween (ts : List Token) (start stop : Nat) : List Char :=
  Token.join ((ts.drop start).take (stop - start))

/-- The text from position `start` up to `stop` with the moves cut out. Each leaves its line feeds
behind. -/
def textWithout (ts : List Token) (start stop : Nat) : List Move → List Char
  | [] => textBetween ts start stop
  | m :: ms =>
    textBetween ts start m.start ++ (textBetween ts m.start m.stop).filter (· = '\n') ++
      textWithout ts m.stop stop ms

/-- The stem of the placeholder names. -/
def placeholderStem : String := "__langver_relocated_"

/-- The member that stands behind the moved declaration number `n`. -/
def placeholder (n : Nat) : List Char :=
  ("void " ++ placeholderStem ++ Nat.repr n ++ "__() \x7b\x7d\n").toList

/-- The moved declarations, each on lines of its own and followed by its placeholder. -/
def movedText (ts : List Token) (n : Nat) : List Move → List Char
  | [] => []
  | m :: ms =>
    '\n' :: textBetween ts m.start m.stop ++ '\n' :: placeholder n ++ movedText ts (n + 1) ms

/-- The text from position `start` on with all moves made. Placeholders are numbered from `n`. -/
def relocatedText (ts : List Token) (start n : Nat) : List Destination → List Char
  | [] => textBetween ts start ts.length
  | d :: ds =>
    textWithout ts start d.brace d.moves ++ movedText ts n d.moves ++
      relocatedText ts d.brace (n + d.moves.length) ds

/-- How often `pattern` occurs in a text, counted from the left without overlaps. -/
def occurrences (pattern : List Char) : List Char → Nat
  | [] => 0
  | c :: cs =>
    if pattern.isPrefixOf (c :: cs) then occurrences pattern (cs.drop (pattern.length - 1)) + 1
    else occurrences pattern cs
termination_by cs => cs.length
decreasing_by all_goals simp only [List.length_drop, List.length_cons]; omega

/-- A declaration that was moved. -/
structure Relocated where
  kind : LocalKind
  name : String
  /-- Line on which it began, counted from one. -/
  line : Nat
deriving DecidableEq

/-- A text after relocation, and what was moved. -/
structure Relocation where
  text : String
  moved : List Relocated

/-- What a move is reported as. -/
def Move.report (ts : List Token) (m : Move) : Relocated :=
  ⟨m.kind, String.ofList m.name, (textBetween ts 0 m.start).count '\n' + 1⟩

/-- Where the local declarations among the tokens of a text move. -/
def destinationsOf (ts : List Token) : List Destination := destinations [] {} [] (codeTokens ts)

/-- Moves every local enum, interface and record to the end of the outermost type around it.
Placeholders are numbered on from those that the text already has. -/
def relocate (source : String) : Relocation :=
  let ts := tokens source.toList
  let ds := destinationsOf ts
  { text := String.ofList
      (relocatedText ts 0 (occurrences placeholderStem.toList source.toList) ds)
    moved := ds.flatMap fun d => d.moves.map (·.report ts) }

end MinimumRelease.Recovery
