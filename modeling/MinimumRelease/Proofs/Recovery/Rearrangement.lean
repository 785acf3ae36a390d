import MinimumRelease.Proofs.Recovery.Placement

/-! # The tokens of a relocated text

Relocation works on stretches of text. What it does to the tokens is said here
position by position: a token that a moved declaration covers is left out, and
before the closing brace of an outermost type stand the declarations that moved
there, each with the six tokens of its placeholder (`rearranged`). The lexemes
of the relocated text are these tokens, so that nothing was lost, doubled,
split or joined on the way. -/

namespace MinimumRelease.Recovery

open Token

/-- A declaration that moves, and the position of the closing brace that it moves to. -/
structure Span where
  move : Move
  target : Nat

def Destination.spans (d : Destination) : List Span := d.moves.map (⟨·, d.brace⟩)

/-- The declarations that move, in the order of the text. -/
def spansOf (ts : List Token) : List Span := (destinationsOf ts).flatMap Destination.spans

/-- The tokens at positions `start` up to `stop`. -/
def tokensBetween (ts : List Token) (start stop : Nat) : List Token :=
  (ts.drop start).take (stop - start)

def Span.block (ts : List Token) (s : Span) : List Token :=
  tokensBetween ts s.move.start s.move.stop

def Move.covers (m : Move) (i : Nat) : Bool := m.start ≤ i && i < m.stop

/-- `void name() {}`, where the name has the number `n`. -/
def placeholderTokens (n : Nat) : List Token :=
  [⟨.word, "void".toList⟩, ⟨.word, (placeholderStem ++ Nat.repr n ++ "__").toList⟩,
   ⟨.mark, ['(']⟩, ⟨.mark, [')']⟩, ⟨.mark, ['{']⟩, ⟨.mark, ['}']⟩]

/-- What is put before position `i`. The spans are numbered from `n`. -/
def arrivals (ts : List Token) (n : Nat) (spans : List Span) (i : Nat) : List Token :=
  (spans.zipIdx n).flatMap fun p =>
    if p.1.target = i then p.1.block ts ++ placeholderTokens p.2 else []

/-- What stands in place of a token: first what is put before it, then the token itself if no
span takes it away. -/
def inPlaceOf (ts : List Token) (n : Nat) (spans : List Span) (p : Placed) : List Token :=
  arrivals ts n spans p.2 ++ if spans.any (·.move.covers p.2) then [] else [p.1]

/-- The tokens with every span cut out and put before its target. -/
def rearranged (ts : List Token) (n : Nat) (spans : List Span) : List Token :=
  ts.zipIdx.flatMap (inPlaceOf ts n spans)

/-! ## The placeholder -/

theorem isWordChar_ne {c : Char} (h : isWordChar c = true) :
    isSpace c = false ∧ c ≠ '/' ∧ c ≠ '"' ∧ c ≠ '\x27' := by
  refine ⟨?_, ?_, ?_, ?_⟩
  · cases hs : isSpace c with
    | false => rfl
    | true =>
      simp only [isSpace, Bool.or_eq_true, decide_eq_true_eq] at hs
      rcases hs with (((rfl | rfl) | rfl) | rfl) | rfl <;> revert h <;> decide
  all_goals
    rintro rfl
    revert h
    decide

theorem reads_word {w : List Char} {c : Char} (hne : w ≠ []) (hw : w.all isWordChar = true)
    (hc : isWordChar c = false) (cs : List Char) : (⟨.word, w⟩ : Token).Reads (c :: cs) := by
  cases w with
  | nil => exact absurd rfl hne
  | cons a w =>
    rw [List.all_eq_true, List.forall_mem_cons] at hw
    obtain ⟨hs, h1, h2, h3⟩ := isWordChar_ne hw.1
    refine ⟨a, w, rfl, ?_⟩
    rw [extent_plain hs h1 h2 h3, if_pos hw.1, runLength_append_iff.2 ⟨hw.2, hc⟩]

theorem lexemes_mark {c : Char} {cs : List Char} (h : extent c cs = (.mark, 0)) :
    lexemes (c :: cs) = ⟨.mark, [c]⟩ :: lexemes cs :=
  lexemes_of_reads (t := ⟨.mark, [c]⟩) ⟨c, [], rfl, h⟩

theorem isWordChar_of_mem_repr {n : Nat} {c : Char} (h : c ∈ (Nat.repr n).toList) :
    isWordChar c = true := by
  rw [Nat.toList_repr] at h
  have hd := Nat.isDigit_of_mem_toDigits (by decide) (by decide) h
  simp [isWordChar, Char.isAlphanum, hd]

theorem all_isWordChar_name (n : Nat) :
    (placeholderStem ++ Nat.repr n ++ "__").toList.all isWordChar = true := by
  have hstem : placeholderStem.toList.all isWordChar = true := rfl
  have hnumber : (Nat.repr n).toList.all isWordChar = true :=
    List.all_eq_true.2 fun _ h => isWordChar_of_mem_repr h
  have hend : "__".toList.all isWordChar = true := rfl
  rw [String.toList_append, String.toList_append, List.all_append, List.all_append, hstem,
    hnumber, hend]
  rfl

theorem lexemes_placeholder (n : Nat) (cs : List Char) :
    lexemes (placeholder n ++ cs) = placeholderTokens n ++ lexemes cs := by
  have hsplit : placeholder n ++ cs = "void".toList ++ ' ' ::
      ((placeholderStem ++ Nat.repr n ++ "__").toList ++
        '(' :: ')' :: ' ' :: '{' :: '}' :: '\n' :: cs) := by
    simp [placeholder]
  have hvoid : (⟨.word, "void".toList⟩ : Token).Reads (' ' ::
      ((placeholderStem ++ Nat.repr n ++ "__").toList ++
        '(' :: ')' :: ' ' :: '{' :: '}' :: '\n' :: cs)) :=
    reads_word (by decide) rfl rfl _
  have hname : (⟨.word, (placeholderStem ++ Nat.repr n ++ "__").toList⟩ : Token).Reads
      ('(' :: ')' :: ' ' :: '{' :: '}' :: '\n' :: cs) :=
    reads_word (by simp [placeholderStem]) (all_isWordChar_name n) rfl _
  rw [hsplit, lexemes_of_reads hvoid, lexemes_space_cons (by decide), lexemes_of_reads hname,
    lexemes_mark rfl, lexemes_mark rfl, lexemes_space_cons (by decide), lexemes_mark rfl,
    lexemes_mark rfl, lexemes_space_cons (by decide)]
  rfl

/-! ## From text to tokens

The three functions that put the relocated text together, on tokens. -/

def tokensWithout (ts : List Token) (start stop : Nat) : List Move → List Token
  | [] => tokensBetween ts start stop
  | m :: ms => tokensBetween ts start m.start ++ tokensWithout ts m.stop stop ms

def movedTokens (ts : List Token) (n : Nat) : List Move → List Token
  | [] => []
  | m :: ms => tokensBetween ts m.start m.stop ++ placeholderTokens n ++ movedTokens ts (n + 1) ms

def relocatedTokens (ts : List Token) (start n : Nat) : List Destination → List Token
  | [] => ts.drop start
  | d :: ds => tokensWithout ts start d.brace d.moves ++ movedTokens ts n d.moves ++
      relocatedTokens ts d.brace (n + d.moves.length) ds

theorem drop_eq_tokensBetween_append (ts : List Token) {start stop : Nat} (h : start ≤ stop) :
    ts.drop start = tokensBetween ts start stop ++ ts.drop stop := by
  have hd : (ts.drop start).drop (stop - start) = ts.drop stop := by
    rw [List.drop_drop]
    congr 1
    omega
  rw [tokensBetween, ← hd, List.take_append_drop]

theorem Lexed.drop {ts : List Token} (h : Lexed ts) (i : Nat) : Lexed (ts.drop i) := by
  rw [← List.take_append_drop i ts] at h
  exact h.tail

theorem drop_of_getElem? {ts : List Token} {i : Nat} {x : Token} (hx : ts[i]? = some x) :
    ts.drop i = x :: ts.drop (i + 1) := by
  obtain ⟨hi, rfl⟩ := List.getElem?_eq_some_iff.1 hx
  exact List.drop_eq_getElem_cons hi

/-- A stretch of the tokens, and the token behind it. -/
theorem Lexed.between {ts : List Token} (h : Lexed ts) {start stop : Nat} (hle : start ≤ stop)
    {x : Token} (hx : ts[stop]? = some x) :
    Lexed (tokensBetween ts start stop ++ x :: ts.drop (stop + 1)) := by
  have hd := h.drop start
  rwa [drop_eq_tokensBetween_append ts hle, drop_of_getElem? hx] at hd

theorem getLast?_tokensBetween {ts : List Token} {start stop : Nat} {t : Token}
    (h : (tokensBetween ts start stop).getLast? = some t) : (ts.take stop).getLast? = some t := by
  have hlt : start ≤ stop := by
    by_cases hle : start ≤ stop
    · exact hle
    · rw [tokensBetween, Nat.sub_eq_zero_of_le (by omega)] at h
      simp at h
  have hsplit : ts.take stop = ts.take start ++ tokensBetween ts start stop := by
    rw [tokensBetween, ← List.take_add, Nat.add_sub_cancel' hlt]
  rw [hsplit, List.getLast?_append, h, Option.some_or]

theorem tokensBetween_eq_cons {ts : List Token} {i stop : Nat} {x : Token}
    (hx : ts[i]? = some x) (hi : i < stop) :
    tokensBetween ts i stop = x :: tokensBetween ts (i + 1) stop := by
  have hn : stop - i = stop - (i + 1) + 1 := by omega
  rw [tokensBetween, drop_of_getElem? hx, hn, List.take_succ_cons, tokensBetween]

/-- What may stand behind a stretch that ended before the token `x`. -/
def Follows (x : Token) (cs : List Char) : Prop := ∃ rest, cs = '\n' :: rest ∨ cs = x.text ++ rest

theorem Lexed.lexemes_between {ts : List Token} (h : Lexed ts) {start stop : Nat}
    (hle : start ≤ stop) {x : Token} (hx : ts[stop]? = some x) {cs : List Char}
    (hcs : Follows x cs) : lexemes (textBetween ts start stop ++ cs) =
      solid (tokensBetween ts start stop) ++ lexemes cs := by
  obtain ⟨rest, rfl | rfl⟩ := hcs
  · rw [lexemes_space_cons (by decide)]
    exact (h.between hle hx).lexemes_before_lineFeed rest
  · exact (h.between hle hx).lexemes_before_token rest

/-- A cut takes a whole number of tokens away, and the lexemes before it stay what they were. -/
theorem Lexed.lexemes_before_move {ts : List Token} (h : Lexed ts) {start i : Nat}
    (hle : start ≤ i) (hi : StartsAt ts i) (cs : List Char) :
    lexemes (textBetween ts start i ++ cs) = solid (tokensBetween ts start i) ++ lexemes cs := by
  obtain ⟨x, hx, hcode⟩ := hi.code
  refine (h.between hle hx).lexemes_before_cut hcode ?_ cs
  intro t ht
  exact hi.separated t (getLast?_tokensBetween ht)

/-- A declaration ends with a brace, so it has the same lexemes wherever it is put. -/
theorem Lexed.lexemes_block {ts : List Token} (h : Lexed ts) {start stop : Nat}
    (hlt : start < stop) (hc : ClosesAt ts (stop - 1)) (cs : List Char) :
    lexemes (textBetween ts start stop ++ cs) =
      solid (tokensBetween ts start stop) ++ lexemes cs := by
  obtain ⟨e, he, hm⟩ := hc
  have hd := h.drop start
  rw [drop_eq_tokensBetween_append ts (Nat.le_of_lt hlt)] at hd
  refine hd.lexemes_join_append ?_
  intro t ht hk
  have hr := hd.reads_getLast ht
  have hlast := getLast?_tokensBetween ht
  have hte : t = e := by
    rw [List.getLast?_take, if_neg (by omega), he] at hlast
    simpa [eq_comm] using hlast
  exact hr.of_stops (stops_of_mark (hte ▸ hm) (by simp)) cs

theorem Spaced.weaken {ts : List Token} {ms : List Move} {lo lo' hi : Nat}
    (h : Spaced ts lo ms hi) (hle : lo' ≤ lo) : Spaced ts lo' ms hi := by
  cases ms with
  | nil => exact Nat.le_trans hle h
  | cons m ms => exact ⟨Nat.le_trans hle h.1, h.2⟩

theorem isSpace_of_mem_lineFeeds {cs : List Char} {c : Char}
    (h : c ∈ cs.filter (· = '\n')) : isSpace c = true := by
  obtain rfl : c = '\n' := by simpa using (List.mem_filter.1 h).2
  decide

theorem Lexed.lexemes_textWithout {ts : List Token} (h : Lexed ts) {stop : Nat} {x : Token}
    (hx : ts[stop]? = some x) {cs : List Char} (hcs : Follows x cs) {ms : List Move} {start : Nat}
    (hms : Spaced ts start ms stop) : lexemes (textWithout ts start stop ms ++ cs) =
      solid (tokensWithout ts start stop ms) ++ lexemes cs := by
  induction ms generalizing start with
  | nil => exact h.lexemes_between hms hx hcs
  | cons m ms ih =>
    obtain ⟨hle, hstart, -, -, hrest⟩ := hms
    rw [textWithout, tokensWithout, List.append_assoc, List.append_assoc,
      h.lexemes_before_move hle hstart,
      lexemes_blank_append (fun _ hc => isSpace_of_mem_lineFeeds hc), ih hrest, solid_append,
      List.append_assoc]

theorem solid_placeholderTokens (n : Nat) : solid (placeholderTokens n) = placeholderTokens n :=
  rfl

theorem Lexed.lexemes_movedText {ts : List Token} (h : Lexed ts) {lo hi : Nat} {ms : List Move}
    (hms : Spaced ts lo ms hi) (n : Nat) (cs : List Char) :
    lexemes (movedText ts n ms ++ cs) = solid (movedTokens ts n ms) ++ lexemes cs := by
  induction ms generalizing lo n with
  | nil => rfl
  | cons m ms ih =>
    obtain ⟨-, -, hlt, hc, hrest⟩ := hms
    have hsplit : movedText ts n (m :: ms) ++ cs = '\n' :: (textBetween ts m.start m.stop ++
        '\n' :: (placeholder n ++ (movedText ts (n + 1) ms ++ cs))) := by
      simp [movedText]
    rw [hsplit, lexemes_space_cons (by decide), h.lexemes_block hlt hc,
      lexemes_space_cons (by decide), lexemes_placeholder, ih hrest, movedTokens, solid_append,
      solid_append, solid_placeholderTokens, List.append_assoc, List.append_assoc]

theorem Ordered.follows {ts : List Token} {ds : List Destination} {lo i n : Nat} {x : Token}
    (h : Ordered ts lo ds) (hi : i < lo) (hx : ts[i]? = some x) :
    Follows x (relocatedText ts i n ds) := by
  have hlen : i < ts.length := (List.getElem?_eq_some_iff.1 hx).1
  -- whatever is cut first, it is cut behind the token at `i`
  have hbetween : ∀ {stop} (cs : List Char), i < stop →
      Follows x (textBetween ts i stop ++ cs) := by
    intro stop cs hlt
    refine ⟨textBetween ts (i + 1) stop ++ cs, .inr ?_⟩
    show join (tokensBetween ts i stop) ++ cs = _
    rw [tokensBetween_eq_cons hx hlt, join_cons, List.append_assoc]
    rfl
  cases ds with
  | nil =>
    have := hbetween [] hlen
    rwa [List.append_nil] at this
  | cons d ds =>
    obtain ⟨brace, moves⟩ := d
    cases moves with
    | nil =>
      rw [relocatedText, List.append_assoc]
      exact hbetween _ (Nat.lt_of_lt_of_le hi h.1)
    | cons m ms =>
      rw [relocatedText, textWithout]
      simp only [List.append_assoc]
      exact hbetween _ (Nat.lt_of_lt_of_le hi h.1.1)

/-- **The lexemes of the relocated text** are put together from the tokens as the text is from
stretches of text. -/
theorem Lexed.lexemes_relocatedText {ts : List Token} (h : Lexed ts) {ds : List Destination}
    {start lo : Nat} (hds : Ordered ts lo ds) (hle : start ≤ lo) (n : Nat) :
    lexemes (relocatedText ts start n ds) = solid (relocatedTokens ts start n ds) := by
  induction ds generalizing start lo n with
  | nil =>
    have hall : textBetween ts start ts.length = join (ts.drop start) := by
      rw [textBetween, ← List.length_drop, List.take_length]
    have hd : Lexed (ts.drop start ++ []) := by simpa using h.drop start
    have hlast := hd.lexemes_join_append (fun t ht _ => hd.reads_getLast ht)
    rw [relocatedText, relocatedTokens, hall]
    simpa [lexemes, tokens] using hlast
  | cons d ds ih =>
    obtain ⟨hms, hclose, hrest⟩ := hds
    obtain ⟨x, hx, -⟩ := hclose
    have hfollows : Follows x
        (movedText ts n d.moves ++ relocatedText ts d.brace (n + d.moves.length) ds) := by
      cases hm : d.moves with
      | nil => exact hrest.follows (Nat.lt_succ_self _) hx
      | cons m ms => exact ⟨_, .inl rfl⟩
    rw [relocatedText, relocatedTokens, List.append_assoc,
      h.lexemes_textWithout hx hfollows (hms.weaken hle), h.lexemes_movedText hms,
      ih hrest (Nat.le_succ _), solid_append, solid_append, List.append_assoc]

/-! ## Position by position -/

theorem Spaced.mem {ts : List Token} {ms : List Move} {lo hi : Nat} (h : Spaced ts lo ms hi)
    {m : Move} (hm : m ∈ ms) : lo ≤ m.start ∧ m.start < m.stop ∧ m.stop ≤ hi := by
  induction ms generalizing lo with
  | nil => cases hm
  | cons a ms ih =>
    obtain ⟨h1, -, h2, -, h3⟩ := h
    rcases List.mem_cons.1 hm with rfl | hm
    · exact ⟨h1, h2, h3.le⟩
    · obtain ⟨h4, h5, h6⟩ := ih h3 hm
      exact ⟨by omega, h5, h6⟩

theorem Spaced.pairwise {ts : List Token} {ms : List Move} {lo hi : Nat}
    (h : Spaced ts lo ms hi) : ms.Pairwise fun a b => a.stop ≤ b.start := by
  induction ms generalizing lo with
  | nil => exact .nil
  | cons m ms ih =>
    obtain ⟨-, -, -, -, hrest⟩ := h
    exact .cons (fun k hk => (hrest.mem hk).1) (ih hrest)

theorem Ordered.mem {ts : List Token} {ds : List Destination} {lo : Nat} (h : Ordered ts lo ds)
    {s : Span} (hs : s ∈ ds.flatMap Destination.spans) :
    lo ≤ s.move.start ∧ s.move.start < s.move.stop ∧ s.move.stop ≤ s.target ∧
      ClosesAt ts s.target := by
  induction ds generalizing lo with
  | nil => cases hs
  | cons d ds ih =>
    obtain ⟨hms, hclose, hrest⟩ := h
    rcases List.mem_append.1 hs with hs | hs
    · obtain ⟨m, hm, rfl⟩ := List.mem_map.1 hs
      obtain ⟨h1, h2, h3⟩ := hms.mem hm
      exact ⟨h1, h2, h3, hclose⟩
    · obtain ⟨h1, h2, h3, h4⟩ := ih hrest hs
      have := hms.le
      exact ⟨by omega, h2, h3, h4⟩

theorem Spaced.ends {ts : List Token} {ms : List Move} {lo hi : Nat} (h : Spaced ts lo ms hi)
    {m : Move} (hm : m ∈ ms) : ClosesAt ts (m.stop - 1) := by
  induction ms generalizing lo with
  | nil => cases hm
  | cons a ms ih =>
    obtain ⟨-, -, -, hc, hrest⟩ := h
    rcases List.mem_cons.1 hm with rfl | hm
    · exact hc
    · exact ih hrest hm

theorem Ordered.ends {ts : List Token} {ds : List Destination} {lo : Nat} (h : Ordered ts lo ds)
    {s : Span} (hs : s ∈ ds.flatMap Destination.spans) : ClosesAt ts (s.move.stop - 1) := by
  induction ds generalizing lo with
  | nil => cases hs
  | cons d ds ih =>
    obtain ⟨hms, -, hrest⟩ := h
    rcases List.mem_append.1 hs with hs | hs
    · obtain ⟨m, hm, rfl⟩ := List.mem_map.1 hs
      exact hms.ends hm
    · exact ih hrest hs

/-- What `f` makes of the tokens at positions `start` up to `stop`. -/
def stretch (ts : List Token) (f : Placed → List Token) (start stop : Nat) : List Token :=
  ((tokensBetween ts start stop).zipIdx start).flatMap f

theorem tokensBetween_append (ts : List Token) {a b c : Nat} (hab : a ≤ b) (hbc : b ≤ c) :
    tokensBetween ts a b ++ tokensBetween ts b c = tokensBetween ts a c := by
  have hn : c - a = (b - a) + (c - b) := by omega
  rw [tokensBetween, tokensBetween, tokensBetween, hn, List.take_add, List.drop_drop,
    Nat.add_sub_cancel' hab]

theorem stretch_append (ts : List Token) (f : Placed → List Token) {a b c : Nat} (hab : a ≤ b)
    (hbc : b ≤ c) (hb : b ≤ ts.length) :
    stretch ts f a c = stretch ts f a b ++ stretch ts f b c := by
  have hlen : (tokensBetween ts a b).length = b - a := by
    rw [tokensBetween, List.length_take, List.length_drop]
    omega
  rw [stretch, ← tokensBetween_append ts hab hbc, List.zipIdx_append, List.flatMap_append, hlen,
    Nat.add_sub_cancel' hab]
  rfl

theorem stretch_congr {ts : List Token} {f g : Placed → List Token} {a b : Nat}
    (h : ∀ t i, a ≤ i → i < b → f (t, i) = g (t, i)) : stretch ts f a b = stretch ts g a b := by
  have hfg : ∀ p ∈ (tokensBetween ts a b).zipIdx a, f p = g p := by
    rintro ⟨t, i⟩ hp
    have hle := List.le_snd_of_mem_zipIdx hp
    have hlt := List.snd_lt_add_of_mem_zipIdx hp
    have hlen : (tokensBetween ts a b).length ≤ b - a := List.length_take_le ..
    simp only at hle hlt
    exact h t i hle (by omega)
  rw [stretch, stretch, List.flatMap_def, List.flatMap_def, List.map_congr_left hfg]

theorem stretch_cons {ts : List Token} {i stop : Nat} {x : Token} (f : Placed → List Token)
    (hx : ts[i]? = some x) (hi : i < stop) :
    stretch ts f i stop = f (x, i) ++ stretch ts f (i + 1) stop := by
  rw [stretch, tokensBetween_eq_cons hx hi, List.zipIdx_cons, List.flatMap_cons]
  rfl

theorem stretch_keep (ts : List Token) (a b : Nat) :
    stretch ts (fun p => [p.1]) a b = tokensBetween ts a b := by
  rw [stretch, ← List.map_eq_flatMap, List.zipIdx_map_fst]

theorem stretch_drop (ts : List Token) (a b : Nat) : stretch ts (fun _ => []) a b = [] := by
  simp [stretch]

/-- Leaving out the positions that moves cover leaves out the moves. -/
theorem Spaced.stretch_eq {ts : List Token} {ms : List Move} {start stop : Nat}
    (h : Spaced ts start ms stop) : stretch ts
      (fun p => if ms.any (·.covers p.2) then [] else [p.1]) start stop =
        tokensWithout ts start stop ms := by
  induction ms generalizing start with
  | nil => exact stretch_keep ts start stop
  | cons m ms ih =>
    obtain ⟨hle, hs, hlt, hc, hrest⟩ := h
    have hlen : m.start < ts.length := by
      obtain ⟨x, hx, -⟩ := hs.code
      exact (List.getElem?_eq_some_iff.1 hx).1
    have hlen' : m.stop - 1 < ts.length := by
      obtain ⟨x, hx, -⟩ := hc
      exact (List.getElem?_eq_some_iff.1 hx).1
    have hstop := hrest.le
    rw [stretch_append ts _ hle (Nat.le_trans (Nat.le_of_lt hlt) hstop) (Nat.le_of_lt hlen),
      stretch_append ts _ (Nat.le_of_lt hlt) hstop (by omega), tokensWithout, ← ih hrest]
    -- before the first move, inside it, and behind it
    have hbefore : stretch ts (fun p => if (m :: ms).any (·.covers p.2) then [] else [p.1])
        start m.start = tokensBetween ts start m.start := by
      rw [← stretch_keep]
      apply stretch_congr
      intro t i _ hi
      rw [if_neg]
      simp only [List.any_eq_true, not_exists, not_and, Move.covers, Bool.and_eq_true,
        decide_eq_true_eq]
      intro k hk
      rcases List.mem_cons.1 hk with rfl | hk
      · omega
      · have := (hrest.mem hk).1
        omega
    have hinside : stretch ts (fun p => if (m :: ms).any (·.covers p.2) then [] else [p.1])
        m.start m.stop = [] := by
      refine (stretch_congr ?_).trans (stretch_drop ts m.start m.stop)
      intro t i h1 h2
      have hm : m.covers i = true := by simp [Move.covers, h1, h2]
      show (if (m :: ms).any (·.covers i) then [] else [t]) = []
      rw [List.any_cons, hm, Bool.true_or, if_pos rfl]
    have hbehind : stretch ts (fun p => if (m :: ms).any (·.covers p.2) then [] else [p.1])
        m.stop stop =
          stretch ts (fun p => if ms.any (·.covers p.2) then [] else [p.1]) m.stop stop := by
      apply stretch_congr
      intro t i hi _
      have hm : m.covers i = false := by
        simp only [Move.covers, Bool.and_eq_false_iff, decide_eq_false_iff_not]
        omega
      simp only [List.any_cons, hm, Bool.false_or]
    rw [hbefore, hinside, hbehind, List.nil_append]

theorem arrivals_append (ts : List Token) (n : Nat) (as bs : List Span) (i : Nat) :
    arrivals ts n (as ++ bs) i = arrivals ts n as i ++ arrivals ts (n + as.length) bs i := by
  rw [arrivals, List.zipIdx_append, List.flatMap_append]
  rfl

theorem arrivals_eq_nil {ts : List Token} {n : Nat} {spans : List Span} {i : Nat}
    (h : ∀ s ∈ spans, s.target ≠ i) : arrivals ts n spans i = [] := by
  rw [arrivals, List.flatMap_eq_nil_iff]
  rintro ⟨s, k⟩ hp
  have hs : s ∈ spans := List.fst_mem_of_mem_zipIdx hp
  rw [if_neg (h s hs)]

theorem arrivals_spans (ts : List Token) (n brace : Nat) (ms : List Move) :
    arrivals ts n (ms.map (⟨·, brace⟩)) brace = movedTokens ts n ms := by
  induction ms generalizing n with
  | nil => rfl
  | cons m ms ih =>
    have hih := ih (n + 1)
    rw [arrivals] at hih
    rw [arrivals, List.map_cons, List.zipIdx_cons, List.flatMap_cons, hih, if_pos rfl]
    rfl

/-- **Relocation is a rearrangement.** Position by position the tokens are what the cuts and the
insertions make of them. -/
theorem Ordered.relocatedTokens_eq {ts : List Token} {ds : List Destination} {start lo : Nat}
    (h : Ordered ts lo ds) (hle : start ≤ lo) (n : Nat) : relocatedTokens ts start n ds =
      stretch ts (inPlaceOf ts n (ds.flatMap Destination.spans)) start ts.length := by
  induction ds generalizing start lo n with
  | nil =>
    have hkeep : inPlaceOf ts n [] = fun p => [p.1] := rfl
    rw [List.flatMap_nil, hkeep, stretch_keep, relocatedTokens, tokensBetween,
      ← List.length_drop, List.take_length]
  | cons d ds ih =>
    obtain ⟨hms, ⟨x, hx, hm⟩, hrest⟩ := h
    have hms := hms.weaken hle
    have hbrace : d.brace < ts.length := (List.getElem?_eq_some_iff.1 hx).1
    have hlater : ∀ s ∈ ds.flatMap Destination.spans, d.brace < s.move.start ∧
        d.brace < s.target := by
      intro s hs
      obtain ⟨h1, h2, h3, -⟩ := hrest.mem hs
      omega
    rw [relocatedTokens, List.flatMap_cons, ih hrest (Nat.le_succ _),
      stretch_append ts _ hms.le (Nat.le_of_lt hbrace) (Nat.le_of_lt hbrace),
      stretch_cons _ hx hbrace, stretch_cons _ hx hbrace, List.append_assoc]
    -- up to the brace only the moves of this destination matter
    have hbefore : stretch ts (inPlaceOf ts n (d.spans ++ ds.flatMap Destination.spans))
        start d.brace = tokensWithout ts start d.brace d.moves := by
      rw [← hms.stretch_eq]
      apply stretch_congr
      intro t i _ hi
      have harr : arrivals ts n (d.spans ++ ds.flatMap Destination.spans) i = [] := by
        apply arrivals_eq_nil
        intro s hs
        rcases List.mem_append.1 hs with hs | hs
        · obtain ⟨m, -, rfl⟩ := List.mem_map.1 hs
          exact Nat.ne_of_gt hi
        · have := hlater s hs
          omega
      have hcov : (d.spans ++ ds.flatMap Destination.spans).any (·.move.covers i) =
          d.moves.any (·.covers i) := by
        have hnone : (ds.flatMap Destination.spans).any (·.move.covers i) = false := by
          rw [List.any_eq_false]
          intro s hs
          have := hlater s hs
          simp only [Move.covers, Bool.and_eq_true, decide_eq_true_eq]
          omega
        rw [List.any_append, hnone, Bool.or_false, Destination.spans, List.any_map]
        rfl
      rw [inPlaceOf, harr, hcov, List.nil_append]
    -- at the brace and behind it those moves are done
    have hcov : ∀ i, d.brace ≤ i →
        (d.spans ++ ds.flatMap Destination.spans).any (·.move.covers i) =
          (ds.flatMap Destination.spans).any (·.move.covers i) := by
      intro i hi
      have hnone : d.spans.any (·.move.covers i) = false := by
        rw [List.any_eq_false]
        intro s hs
        obtain ⟨m, hmem, rfl⟩ := List.mem_map.1 hs
        have := (hms.mem hmem).2.2
        simp only [Move.covers, Bool.and_eq_true, decide_eq_true_eq]
        omega
      rw [List.any_append, hnone, Bool.false_or]
    have hlen : d.spans.length = d.moves.length := List.length_map _
    have hat : inPlaceOf ts n (d.spans ++ ds.flatMap Destination.spans) (x, d.brace) =
        movedTokens ts n d.moves ++
          inPlaceOf ts (n + d.moves.length) (ds.flatMap Destination.spans) (x, d.brace) := by
      rw [inPlaceOf, hcov _ (Nat.le_refl _), arrivals_append, hlen, List.append_assoc,
        Destination.spans, arrivals_spans]
      rfl
    have hbehind : stretch ts (inPlaceOf ts n (d.spans ++ ds.flatMap Destination.spans))
        (d.brace + 1) ts.length =
          stretch ts (inPlaceOf ts (n + d.moves.length) (ds.flatMap Destination.spans))
            (d.brace + 1) ts.length := by
      apply stretch_congr
      intro t i hi _
      have harr : arrivals ts n d.spans i = [] := by
        apply arrivals_eq_nil
        intro s hs
        obtain ⟨m, -, rfl⟩ := List.mem_map.1 hs
        exact Nat.ne_of_lt hi
      rw [inPlaceOf, hcov i (by omega), arrivals_append, hlen, harr, List.nil_append]
      rfl
    rw [hbefore, hat, hbehind, List.append_assoc]

/-! ## Nothing lost, nothing doubled -/

theorem count_tokensWithout {ts : List Token} {ms : List Move} {start stop : Nat}
    (h : Spaced ts start ms stop) (n : Nat) (t : Token) :
    (tokensWithout ts start stop ms).count t + (movedTokens ts n ms).count t =
      (tokensBetween ts start stop).count t +
        ((List.range' n ms.length).flatMap placeholderTokens).count t := by
  induction ms generalizing start n with
  | nil => simp [tokensWithout, movedTokens]
  | cons m ms ih =>
    obtain ⟨hle, -, hlt, -, hrest⟩ := h
    have hih := ih hrest (n + 1)
    have hsplit : tokensBetween ts start stop = tokensBetween ts start m.start ++
        (tokensBetween ts m.start m.stop ++ tokensBetween ts m.stop stop) := by
      have hstop := hrest.le
      rw [tokensBetween_append ts (Nat.le_of_lt hlt) hstop,
        tokensBetween_append ts hle (by omega)]
    rw [hsplit, tokensWithout, movedTokens, List.length_cons, List.range'_succ,
      List.flatMap_cons]
    simp only [List.count_append]
    omega

theorem count_relocatedTokens {ts : List Token} {ds : List Destination} {start lo : Nat}
    (h : Ordered ts lo ds) (hle : start ≤ lo) (n : Nat) (t : Token) :
    (relocatedTokens ts start n ds).count t = (ts.drop start).count t +
      ((List.range' n (ds.flatMap Destination.spans).length).flatMap
        placeholderTokens).count t := by
  induction ds generalizing start lo n with
  | nil => simp [relocatedTokens]
  | cons d ds ih =>
    obtain ⟨hms, -, hrest⟩ := h
    have hcount := count_tokensWithout (hms.weaken hle) n t
    have hih := ih hrest (Nat.le_succ d.brace) (n + d.moves.length)
    have hnum : List.range' n ((d :: ds).flatMap Destination.spans).length =
        List.range' n d.moves.length ++
          List.range' (n + d.moves.length) (ds.flatMap Destination.spans).length := by
      rw [List.flatMap_cons, List.length_append, Destination.spans, List.length_map,
        List.range'_append_1]
    rw [relocatedTokens, drop_eq_tokensBetween_append ts (hms.weaken hle).le, hnum,
      List.flatMap_append]
    simp only [List.count_append]
    omega

theorem perm_relocatedTokens {ts : List Token} {ds : List Destination} (h : Ordered ts 0 ds)
    (n : Nat) : (relocatedTokens ts 0 n ds).Perm
      (ts ++ (List.range' n (ds.flatMap Destination.spans).length).flatMap placeholderTokens) := by
  rw [List.perm_iff_count]
  intro t
  rw [count_relocatedTokens h (Nat.le_refl 0), List.drop_zero, List.count_append]

theorem solid_flatMap_placeholderTokens (ns : List Nat) :
    solid (ns.flatMap placeholderTokens) = ns.flatMap placeholderTokens := by
  induction ns with
  | nil => rfl
  | cons n ns ih => rw [List.flatMap_cons, solid_append, solid_placeholderTokens, ih]

theorem Ordered.pairwise {ts : List Token} {ds : List Destination} {lo : Nat}
    (h : Ordered ts lo ds) : (ds.flatMap Destination.spans).Pairwise
      fun a b => a.move.stop ≤ b.move.start ∧ a.target ≤ b.target := by
  induction ds generalizing lo with
  | nil => exact .nil
  | cons d ds ih =>
    obtain ⟨hms, -, hrest⟩ := h
    rw [List.flatMap_cons, List.pairwise_append]
    refine ⟨?_, ih hrest, ?_⟩
    · rw [Destination.spans, List.pairwise_map]
      exact hms.pairwise.imp fun hab => ⟨hab, Nat.le_refl _⟩
    · intro a ha b hb
      obtain ⟨m, hm, rfl⟩ := List.mem_map.1 ha
      have h1 := (hms.mem hm).2.2
      obtain ⟨h2, h3, h4, -⟩ := hrest.mem hb
      exact ⟨by show m.stop ≤ _; omega, by show d.brace ≤ _; omega⟩

/-- The number of the first placeholder. -/
def firstNumber (source : String) : Nat := occurrences placeholderStem.toList source.toList

theorem rearranged_eq (ts : List Token) (n : Nat) :
    rearranged ts n (spansOf ts) = relocatedTokens ts 0 n (destinationsOf ts) := by
  rw [(ordered_destinationsOf ts).relocatedTokens_eq (Nat.le_refl 0), stretch, tokensBetween,
    List.drop_zero, Nat.sub_zero, List.take_length]
  rfl

theorem lexemes_text (source : String) : lexemes (relocate source).text.toList =
    solid (rearranged (tokens source.toList) (firstNumber source)
      (spansOf (tokens source.toList))) := by
  have h := (lexed_tokens source.toList).lexemes_relocatedText (ordered_destinationsOf _)
    (Nat.le_refl 0) (firstNumber source)
  rw [rearranged_eq, ← h]
  simp only [relocate, String.toList_ofList]
  rfl

/-- **Relocation loses no code and doubles none.** Comments included and blanks left out, the
tokens of the relocated text are those of the source with the moved declarations cut out and put,
in their order and each with its placeholder, right before the brace that they move to. Those
declarations do not overlap, and each stands before its brace. What is reported as moved are these
declarations. -/
theorem lexemes_relocate (source : String) :
    lexemes (relocate source).text.toList = solid (rearranged (tokens source.toList)
        (firstNumber source) (spansOf (tokens source.toList))) ∧
      (lexemes (relocate source).text.toList).Perm (lexemes source.toList ++
        (List.range' (firstNumber source) (spansOf (tokens source.toList)).length).flatMap
          placeholderTokens) ∧
      (relocate source).moved.map (fun r => (r.kind, r.name)) =
        (spansOf (tokens source.toList)).map (fun s => (s.move.kind, String.ofList s.move.name)) ∧
      (spansOf (tokens source.toList)).Pairwise
        (fun a b => a.move.stop ≤ b.move.start ∧ a.target ≤ b.target) ∧
      ∀ s ∈ spansOf (tokens source.toList), s.move.start < s.move.stop ∧
        s.move.stop ≤ s.target ∧ ClosesAt (tokens source.toList) s.target := by
  have hord := ordered_destinationsOf (tokens source.toList)
  refine ⟨lexemes_text source, ?_, ?_, hord.pairwise, fun s hs => (hord.mem hs).2⟩
  · rw [lexemes_text, rearranged_eq, lexemes, ← solid_flatMap_placeholderTokens, ← solid_append]
    exact (perm_relocatedTokens hord (firstNumber source)).filter _
  · show List.map _ ((destinationsOf _).flatMap _) = ((destinationsOf _).flatMap _).map _
    rw [List.map_flatMap, List.map_flatMap]
    congr 1
    funext d
    rw [Destination.spans, List.map_map, List.map_map]
    rfl

end MinimumRelease.Recovery
