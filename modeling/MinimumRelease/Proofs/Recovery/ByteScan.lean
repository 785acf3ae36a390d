import MinimumRelease.Proofs.Recovery.Lexeme
import MinimumRelease.Proofs.Text.Patch

/-! # Tokens read byte by byte

Tokens are read off a list of characters, so none of them can begin or end inside
a character. A lexer that runs over the bytes of a text has no such guarantee. Its
loops go from byte to byte, an escape takes two bytes along whatever they are part
of, and a loop may step over the end of the text. Here tokens are read that way, one
after the other, from a position that moves on (`next`).

No loop ends at a byte above ASCII. So a loop that has stepped into a character comes
out behind it (`loopEnd_high`), and where a character begins it does what is done
with the character (`Follows`). Both ways find the same tokens (`yields_tokens`). -/

namespace MinimumRelease.Recovery

open Token
open Text (byteLength bytes)

/-! ## Bytes of characters -/

theorem utf8Size_of_ascii {c : Char} (hc : c.toNat < 128) : c.utf8Size = 1 :=
  Char.utf8Size_eq_one_iff.2 (UInt32.le_iff_toNat_le.2 (Nat.le_of_lt_succ hc))

theorem utf8EncodeChar_of_ascii {c : Char} (hc : c.toNat < 128) :
    String.utf8EncodeChar c = [c.toUInt8] :=
  String.utf8EncodeChar_eq_singleton (utf8Size_of_ascii hc)

theorem high_of_not_ascii {c : Char} (hc : 128 ≤ c.toNat) :
    ∀ b ∈ String.utf8EncodeChar c, 128 ≤ b.toNat := by
  intro b hb
  rcases Text.high_of_mem_utf8EncodeChar hb with he | hhigh
  · rw [he]
    exact hc
  · exact hhigh

theorem exists_utf8EncodeChar_eq (c : Char) : ∃ b bs, String.utf8EncodeChar c = b :: bs := by
  refine List.exists_cons_of_length_pos ?_
  rw [String.length_utf8EncodeChar]
  exact c.utf8Size_pos

/-- Behind the first byte of a character only high ones follow. -/
theorem high_of_utf8EncodeChar_eq {c : Char} {b : UInt8} {bs : List UInt8}
    (h : String.utf8EncodeChar c = b :: bs) : ∀ x ∈ bs, 128 ≤ x.toNat := by
  by_cases hc : c.toNat < 128
  · rw [utf8EncodeChar_of_ascii hc] at h
    cases h
    simp
  · have hhigh := high_of_not_ascii (Nat.le_of_not_lt hc)
    rw [h] at hhigh
    exact (List.forall_mem_cons.1 hhigh).2

theorem toNat_toUInt8 {c : Char} (hc : c.toNat < 128) : c.toUInt8.toNat = c.toNat := by
  show c.toNat % 256 = c.toNat
  omega

theorem toUInt8_inj {a c : Char} (ha : a.toNat < 128) (hc : c.toNat < 128) :
    a.toUInt8 = c.toUInt8 ↔ a = c := by
  refine ⟨fun h => ?_, fun h => by rw [h]⟩
  have hnat := congrArg UInt8.toNat h
  rw [toNat_toUInt8 ha, toNat_toUInt8 hc] at hnat
  exact Char.toNat_inj.1 hnat

/-- ASCII text stands in the bytes where it stands in the characters. -/
theorem bytes_prefix_iff {as : List Char} (ha : ∀ a ∈ as, a.toNat < 128) (cs : List Char) :
    bytes as <+: bytes cs ↔ as <+: cs := by
  induction as generalizing cs with
  | nil => simp
  | cons a as ih =>
    obtain ⟨ha, has⟩ := List.forall_mem_cons.1 ha
    rw [Text.bytes_cons, utf8EncodeChar_of_ascii ha, List.singleton_append]
    cases cs with
    | nil => simp
    | cons c cs =>
      rw [List.cons_prefix_cons, Text.bytes_cons]
      by_cases hc : c.toNat < 128
      · rw [utf8EncodeChar_of_ascii hc, List.singleton_append, List.cons_prefix_cons,
          toUInt8_inj ha hc, ih has]
      · -- the first byte of any other character is no ASCII byte
        have hne : a ≠ c := fun h => hc (h ▸ ha)
        simp only [hne, false_and, iff_false]
        obtain ⟨b, bs, hb⟩ := exists_utf8EncodeChar_eq c
        have hhigh := high_of_not_ascii (Nat.le_of_not_lt hc) b (by simp [hb])
        rw [hb, List.cons_append, List.cons_prefix_cons]
        rintro ⟨rfl, -⟩
        rw [toNat_toUInt8 ha] at hhigh
        omega

/-! ## Loops over bytes -/

namespace Bytewise

/-- What a loop does at the first of the bytes ahead. -/
inductive Step where
  /-- It ends behind the next `n` bytes. -/
  | ends (n : Nat)
  /-- It goes on behind this byte and `n` more. -/
  | passes (n : Nat)

/-- The byte at which a loop from byte `i` on ends: where `step` says so, or with the text. -/
def loopEnd (step : List UInt8 → Step) (src : List UInt8) (i : Nat) : Nat :=
  if i < src.length then
    match step (src.drop i) with
    | .ends n => i + n
    | .passes n => loopEnd step src (i + n + 1)
  else src.length
termination_by src.length - i

/-- Whether the bytes ahead begin with `text`. -/
def begins (text : List Char) (ahead : List UInt8) : Bool := (bytes text).isPrefixOf ahead

namespace Step

/-- Runs as long as the bytes satisfy `p`. -/
def run (p : UInt8 → Bool) (ahead : List UInt8) : Step :=
  if ahead.head?.any p then .passes 0 else .ends 0

/-- Runs through the end of a block comment. -/
def blockComment (ahead : List UInt8) : Step :=
  if begins ['*', '/'] ahead then .ends 2 else .passes 0

/-- Runs through the closing quotes of a text block. -/
def textBlock (ahead : List UInt8) : Step :=
  if begins ['\\'] ahead then .passes 1
  else if begins ['"', '"', '"'] ahead then .ends 3
  else .passes 0

/-- Runs through the closing quote of a literal, or up to a line feed. -/
def quoted (quote : Char) (ahead : List UInt8) : Step :=
  if begins ['\\'] ahead then .passes 1
  else if begins ['\n'] ahead then .ends 0
  else if begins [quote] ahead then .ends 1
  else .passes 0

end Step

variable {step : List UInt8 → Step} {len : List Char → Nat}

theorem loopEnd_nil (step : List UInt8 → Step) : loopEnd step [] 0 = 0 := by
  rw [loopEnd]
  rfl

/-- What stands before the loop does not matter. -/
theorem loopEnd_append (as bs : List UInt8) (i : Nat) :
    loopEnd step (as ++ bs) (as.length + i) = as.length + loopEnd step bs i := by
  fun_induction loopEnd step bs i with
  | case1 i hi n hstep =>
    rw [loopEnd, if_pos (by rw [List.length_append]; omega), List.drop_length_add_append, hstep]
    exact Nat.add_assoc ..
  | case2 i hi n hstep ih =>
    rw [loopEnd, if_pos (by rw [List.length_append]; omega), List.drop_length_add_append, hstep,
      ← ih, ← Nat.add_assoc, ← Nat.add_assoc]
  | case3 i hi =>
    rw [loopEnd, if_neg (by rw [List.length_append]; omega), List.length_append]

theorem loopEnd_of_ends {b : UInt8} {bs : List UInt8} {n : Nat} (h : step (b :: bs) = .ends n) :
    loopEnd step (b :: bs) 0 = n := by
  rw [loopEnd, if_pos (by simp), List.drop_zero, h]
  exact Nat.zero_add n

theorem loopEnd_of_passes {as bs : List UInt8} {n : Nat} (h : step (as ++ bs) = .passes n)
    (hlen : as.length = n + 1) : loopEnd step (as ++ bs) 0 = as.length + loopEnd step bs 0 := by
  rw [loopEnd, if_pos (by rw [List.length_append]; omega), List.drop_zero, h,
    ← loopEnd_append as bs 0, hlen]
  simp only [Nat.zero_add, Nat.add_zero]

/-- A loop that steps over the end of the text ends with it. -/
theorem loopEnd_of_beyond {as : List UInt8} {n : Nat} (h : step as = .passes n)
    (hpos : 0 < as.length) (hlen : as.length ≤ n + 1) : loopEnd step as 0 = as.length := by
  rw [loopEnd, if_pos hpos, List.drop_zero, h]
  simp only
  rw [loopEnd, if_neg (by omega)]

/-- The loop does not end at a byte above ASCII and takes none along with it. -/
def PassesHigh (step : List UInt8 → Step) : Prop :=
  ∀ b bs, 128 ≤ b.toNat → step (b :: bs) = .passes 0

/-- Inside a character a loop runs up to its end. -/
theorem loopEnd_high (h : PassesHigh step) {as : List UInt8} (ha : ∀ b ∈ as, 128 ≤ b.toNat)
    (bs : List UInt8) : loopEnd step (as ++ bs) 0 = as.length + loopEnd step bs 0 := by
  induction as with
  | nil => simp
  | cons a as ih =>
    obtain ⟨ha, has⟩ := List.forall_mem_cons.1 ha
    have hone : loopEnd step ([a] ++ (as ++ bs)) 0 = 1 + loopEnd step (as ++ bs) 0 :=
      loopEnd_of_passes (h a _ ha) rfl
    rw [List.cons_append, ← List.singleton_append, hone, ih has, List.length_cons]
    omega

/-- An escape goes on behind the character that it takes along. -/
theorem loopEnd_escape (h : PassesHigh step) {d : Char} {cs : List Char}
    (hstep : step (bytes ('\\' :: d :: cs)) = .passes 1) :
    loopEnd step (bytes ('\\' :: d :: cs)) 0 =
      byteLength ['\\', d] + loopEnd step (bytes cs) 0 := by
  obtain ⟨b, bs, hb⟩ := exists_utf8EncodeChar_eq d
  have hsplit : bytes ('\\' :: d :: cs) = ['\\'.toUInt8, b] ++ (bs ++ bytes cs) := by
    rw [Text.bytes_cons, Text.bytes_cons, hb]
    rfl
  have hsize : byteLength ['\\', d] = 2 + bs.length := by
    rw [← Text.length_bytes, Text.bytes_cons, Text.bytes_cons, hb]
    simp only [Text.bytes_nil, List.append_nil, List.length_append, List.length_cons]
    show 1 + (bs.length + 1) = _
    omega
  rw [hsplit] at hstep ⊢
  rw [loopEnd_of_passes hstep rfl, loopEnd_high h (high_of_utf8EncodeChar_eq hb), hsize]
  exact (Nat.add_assoc ..).symm

/-! ## Loops that follow the characters -/

/-- What the loop does at the beginning of `c :: cs` agrees with `len`, the number of characters to
take from there. -/
inductive Decides (step : List UInt8 → Step) (len : List Char → Nat) (c : Char) (cs : List Char) :
    Prop
  | ends : step (bytes (c :: cs)) = .ends (byteLength ((c :: cs).take (len (c :: cs)))) →
      Decides step len c cs
  | passes : step (bytes (c :: cs)) = .passes 0 → len (c :: cs) = len cs + 1 →
      Decides step len c cs
  | escapes : c = '\\' → step (bytes (c :: cs)) = .passes 1 →
      (c :: cs).take (len (c :: cs)) = (c :: cs).take 2 ++ (cs.drop 1).take (len (cs.drop 1)) →
      Decides step len c cs

/-- It does so at the beginning of every character, and passes over high bytes. -/
structure Follows (step : List UInt8 → Step) (len : List Char → Nat) : Prop where
  high : PassesHigh step
  decides : ∀ c cs, Decides step len c cs

/-- A loop that follows `len` ends behind as many characters. -/
theorem Follows.loopEnd_bytes (h : Follows step len) (cs : List Char) :
    loopEnd step (bytes cs) 0 = byteLength (cs.take (len cs)) := by
  -- an escape takes two characters along, so the induction is on the length
  induction hn : cs.length using Nat.strongRecOn generalizing cs with
  | _ n ih =>
    cases cs with
    | nil => rw [List.take_nil]; exact loopEnd_nil step
    | cons c cs =>
      rw [List.length_cons] at hn
      have hrest : loopEnd step (bytes cs) 0 = byteLength (cs.take (len cs)) :=
        ih cs.length (by omega) cs rfl
      cases h.decides c cs with
      | ends hstep =>
        obtain ⟨b, bs, hb⟩ := exists_utf8EncodeChar_eq c
        rw [Text.bytes_cons, hb] at hstep ⊢
        exact loopEnd_of_ends hstep
      | passes hstep hlen =>
        rw [hlen, List.take_succ_cons, Text.byteLength_cons, ← hrest,
          ← String.length_utf8EncodeChar]
        by_cases hc : c.toNat < 128
        · exact loopEnd_of_passes hstep (by rw [utf8EncodeChar_of_ascii hc]; rfl)
        · exact loopEnd_high h.high (high_of_not_ascii (Nat.le_of_not_lt hc)) _
      | escapes hc hstep htake =>
        subst hc
        rw [htake]
        cases cs with
        | nil =>
          rw [loopEnd_of_beyond hstep Nat.one_pos (Nat.le_succ _), List.drop_nil, List.take_nil]
          rfl
        | cons d cs =>
          rw [loopEnd_escape h.high hstep, ih cs.length (by rw [List.length_cons] at hn; omega) cs
            rfl, Text.byteLength_append]
          rfl

/-- It may begin behind any characters. -/
theorem Follows.loopEnd_behind (h : Follows step len) (as cs : List Char) :
    loopEnd step (bytes (as ++ cs)) (byteLength as) = byteLength (as ++ cs.take (len cs)) := by
  have happend : loopEnd step (bytes as ++ bytes cs) ((bytes as).length + 0) = _ :=
    loopEnd_append (bytes as) (bytes cs) 0
  rw [Nat.add_zero, Text.length_bytes, h.loopEnd_bytes] at happend
  rw [Text.bytes_append, happend, Text.byteLength_append]

theorem begins_iff (text : List Char) (h : text.all (·.toNat < 128) = true) (cs : List Char) :
    begins text (bytes cs) = true ↔ text <+: cs := by
  rw [begins, List.isPrefixOf_iff_prefix, bytes_prefix_iff (by simpa using h)]

theorem begins_bytes {text : List Char} (h : text.all (·.toNat < 128) = true) (cs : List Char) :
    begins text (bytes cs) = text.isPrefixOf cs := by
  rw [Bool.eq_iff_iff, begins_iff text h, List.isPrefixOf_iff_prefix]

theorem begins_high {c : Char} (hc : c.toNat < 128) (text : List Char) {b : UInt8}
    (hb : 128 ≤ b.toNat) (bs : List UInt8) : begins (c :: text) (b :: bs) = false := by
  rw [begins, Text.bytes_cons, utf8EncodeChar_of_ascii hc, List.singleton_append, List.isPrefixOf]
  have hne : c.toUInt8 ≠ b := by
    rintro rfl
    rw [toNat_toUInt8 hc] at hb
    omega
  simp [hne]

/-- `p` says of the first byte of a character what `q` says of the character. High bytes and their
characters satisfy both. -/
structure Alike (p : UInt8 → Bool) (q : Char → Bool) : Prop where
  ascii : ∀ c, c.toNat < 128 → p c.toUInt8 = q c
  byte : ∀ b, 128 ≤ b.toNat → p b = true
  char : ∀ c, 128 ≤ c.toNat → q c = true

theorem Alike.head {p : UInt8 → Bool} {q : Char → Bool} (h : Alike p q) (c : Char)
    (cs : List Char) : (bytes (c :: cs)).head?.any p = q c := by
  by_cases hc : c.toNat < 128
  · rw [Text.bytes_cons, utf8EncodeChar_of_ascii hc]
    exact h.ascii c hc
  · have hc := Nat.le_of_not_lt hc
    obtain ⟨b, bs, hb⟩ := exists_utf8EncodeChar_eq c
    rw [Text.bytes_cons, hb, h.char c hc]
    exact h.byte b (high_of_not_ascii hc b (by simp [hb]))

theorem Alike.follows {p : UInt8 → Bool} {q : Char → Bool} (h : Alike p q) :
    Follows (Step.run p) (runLength q) := by
  refine ⟨fun b bs hb => by simp [Step.run, h.byte b hb], fun c cs => ?_⟩
  have hhead := h.head c cs
  cases hq : q c with
  | false =>
    refine .ends ?_
    rw [Step.run, hhead, hq, runLength, List.takeWhile_cons_of_neg (by simp [hq])]
    rfl
  | true =>
    refine .passes ?_ ?_
    · rw [Step.run, hhead, hq]
      rfl
    · rw [runLength, List.takeWhile_cons_of_pos hq]
      rfl

theorem follows_blockComment : Follows Step.blockComment blockCommentLength := by
  refine ⟨fun b bs hb => ?_, fun c cs => ?_⟩
  · rw [Step.blockComment, begins_high (by decide) _ hb]
    rfl
  · have hclosed := begins_iff ['*', '/'] (by decide) (c :: cs)
    by_cases h : ['*', '/'] <+: c :: cs
    · obtain ⟨rest, hrest⟩ := h
      obtain ⟨rfl, rfl⟩ := List.cons.inj hrest
      refine .ends ?_
      rw [Step.blockComment, if_pos (hclosed.2 ⟨rest, rfl⟩)]
      rfl
    · refine .passes ?_ ?_
      · rw [Step.blockComment, if_neg (mt hclosed.1 h)]
      · rw [blockCommentLength]
        rintro rest rfl rfl
        exact h ⟨rest, rfl⟩

theorem follows_textBlock : Follows Step.textBlock textBlockLength := by
  refine ⟨fun b bs hb => ?_, fun c cs => ?_⟩
  · rw [Step.textBlock, begins_high (by decide) _ hb, begins_high (by decide) _ hb]
    rfl
  have hescape := begins_iff ['\\'] (by decide) (c :: cs)
  have hclosed := begins_iff ['"', '"', '"'] (by decide) (c :: cs)
  by_cases hc : c = '\\'
  · subst hc
    refine .escapes rfl (if_pos (hescape.2 ⟨cs, rfl⟩)) ?_
    cases cs with
    | nil => simp [textBlockLength]
    | cons d cs => rw [textBlockLength_escape]; rfl
  · have hskip : ¬ begins ['\\'] (bytes (c :: cs)) = true := by
      rw [hescape, List.cons_prefix_cons]
      exact fun h => hc h.1.symm
    by_cases h : ['"', '"', '"'] <+: c :: cs
    · obtain ⟨rest, hrest⟩ := h
      obtain ⟨rfl, rfl⟩ := List.cons.inj hrest
      refine .ends ?_
      rw [Step.textBlock, if_neg hskip, if_pos (hclosed.2 ⟨rest, rfl⟩)]
      rfl
    · refine .passes ?_ ?_
      · rw [Step.textBlock, if_neg hskip, if_neg (mt hclosed.1 h)]
      · rw [textBlockLength_cons c cs hc, if_neg]
        rwa [List.cons_prefix_cons, eq_comm] at h

theorem follows_quoted {q : Char} (hq : q.toNat < 128) :
    Follows (Step.quoted q) (quotedLength q) := by
  refine ⟨fun b bs hb => ?_, fun c cs => ?_⟩
  · rw [Step.quoted, begins_high (by decide) _ hb, begins_high (by decide) _ hb,
      begins_high hq _ hb]
    rfl
  have hbegins : ∀ a : Char, a.toNat < 128 → (begins [a] (bytes (c :: cs)) = true ↔ c = a) := by
    intro a ha
    rw [begins_iff [a] (by simpa using ha), List.cons_prefix_cons, eq_comm]
    simp
  have hescape := hbegins '\\' (by decide)
  have hfeed := hbegins '\n' (by decide)
  have hquote := hbegins q hq
  by_cases hc : c = '\\'
  · refine .escapes hc (if_pos (hescape.2 hc)) ?_
    subst hc
    cases cs with
    | nil => simp [quotedLength]
    | cons d cs => rw [quotedLength]; rfl
  · have hlen := quotedLength_cons q c cs hc
    have hskip := mt hescape.1 hc
    by_cases hn : c = '\n'
    · refine .ends ?_
      rw [hlen, if_pos hn, Step.quoted, if_neg hskip, if_pos (hfeed.2 hn)]
      rfl
    · have hstay := mt hfeed.1 hn
      by_cases hcq : c = q
      · refine .ends ?_
        rw [hlen, if_neg hn, if_pos hcq, Step.quoted, if_neg hskip, if_neg hstay,
          if_pos (hquote.2 hcq), List.take_succ_cons, Text.byteLength_cons,
          utf8Size_of_ascii (hcq ▸ hq)]
        rfl
      · refine .passes ?_ ?_
        · rw [Step.quoted, if_neg hskip, if_neg hstay, if_neg (mt hquote.1 hcq)]
        · rw [hlen, if_neg hn, if_neg hcq]

-- the escape goes on inside a character, or behind the end of the text
example : loopEnd (Step.quoted '"') (bytes ['"', '\\', 'é', '"', 'x']) 1 = 5 := by cbv
example : loopEnd (Step.quoted '"') (bytes ['"', '\\']) 1 = 2 := by cbv

end Bytewise

/-! ## The next token -/

/-- A token and the bytes that it takes up. -/
structure ByteToken where
  kind : Kind
  start : Nat
  stop : Nat
deriving DecidableEq

/-- The token in a text that has `n` more bytes in front. -/
def ByteToken.shift (n : Nat) (t : ByteToken) : ByteToken := ⟨t.kind, n + t.start, n + t.stop⟩

namespace Bytewise

/-- Space, tab, line feed, form feed and carriage return. -/
def isSpaceByte (b : UInt8) : Bool := b = 32 || b = 9 || b = 10 || b = 12 || b = 13

/-- ASCII letters and digits, underscore, dollar sign and all high bytes. -/
def isWordByte (b : UInt8) : Bool :=
  ('0'.toUInt8 ≤ b && b ≤ '9'.toUInt8) || ('A'.toUInt8 ≤ b && b ≤ 'Z'.toUInt8) ||
    ('a'.toUInt8 ≤ b && b ≤ 'z'.toUInt8) || b = '_'.toUInt8 || b = '$'.toUInt8 || 128 ≤ b

/-- The token that begins at byte `start`. -/
def tokenAt (src : List UInt8) (start : Nat) : ByteToken :=
  let ahead := src.drop start
  if begins ['/', '/'] ahead then ⟨.comment, start, loopEnd (Step.run (· ≠ 10)) src start⟩
  else if begins ['/', '*'] ahead then
    ⟨.comment, start, loopEnd Step.blockComment src (start + 2)⟩
  else if begins ['"', '"', '"'] ahead then
    ⟨.literal, start, loopEnd Step.textBlock src (start + 3)⟩
  else if begins ['"'] ahead then ⟨.literal, start, loopEnd (Step.quoted '"') src (start + 1)⟩
  else if begins ['\x27'] ahead then
    ⟨.literal, start, loopEnd (Step.quoted '\x27') src (start + 1)⟩
  else if ahead.head?.any isWordByte then ⟨.word, start, loopEnd (Step.run isWordByte) src start⟩
  else ⟨.mark, start, start + 1⟩

/-- The next token from byte `pos` on, and the byte from which on to look for the one after it. -/
def next (src : List UInt8) (pos : Nat) : Option (ByteToken × Nat) :=
  let start := loopEnd (Step.run isSpaceByte) src pos
  if start < src.length then
    let t := tokenAt src start
    some (t, min t.stop src.length)
  else none

/-- From byte `pos` on the tokens `ts` are read, and then no more. -/
inductive Yields (src : List UInt8) : Nat → List ByteToken → Prop
  | done {pos} : next src pos = none → Yields src pos []
  | token {pos pos' t ts} : next src pos = some (t, pos') → Yields src pos' ts →
      Yields src pos (t :: ts)

variable {src : List UInt8} {pos : Nat} {ts : List ByteToken}

theorem Yields.unique {us : List ByteToken} (ht : Yields src pos ts) (hu : Yields src pos us) :
    ts = us := by
  induction ht generalizing us with
  | done hnone =>
    cases hu with
    | done => rfl
    | token hsome => rw [hnone] at hsome; cases hsome
  | token hsome _ ih =>
    cases hu with
    | done hnone => rw [hsome] at hnone; cases hnone
    | token hsome' hrest =>
      rw [hsome] at hsome'
      cases hsome'
      rw [ih hrest]

theorem Yields.of_next_eq {pos' : Nat} (h : Yields src pos' ts)
    (he : next src pos = next src pos') : Yields src pos ts := by
  cases h with
  | done hnone => exact .done (he.trans hnone)
  | token hsome hrest => exact .token (he.trans hsome) hrest

theorem tokenAt_append (as bs : List UInt8) (start : Nat) :
    tokenAt (as ++ bs) (as.length + start) = (tokenAt bs start).shift as.length := by
  simp only [tokenAt, List.drop_length_add_append, Nat.add_assoc, loopEnd_append,
    apply_ite (ByteToken.shift as.length)]
  rfl

theorem next_append (as bs : List UInt8) (pos : Nat) :
    next (as ++ bs) (as.length + pos) =
      (next bs pos).map fun r => (r.1.shift as.length, as.length + r.2) := by
  simp only [next, loopEnd_append, tokenAt_append, List.length_append, Nat.add_lt_add_iff_left]
  split
  · simp [ByteToken.shift, Nat.add_min_add_left]
  · rfl

/-- Behind any bytes the same tokens are read, shifted. -/
theorem Yields.append (h : Yields src pos ts) (as : List UInt8) :
    Yields (as ++ src) (as.length + pos) (ts.map (·.shift as.length)) := by
  induction h with
  | done hnone => exact .done (by rw [next_append, hnone]; rfl)
  | token hsome _ ih => exact .token (by rw [next_append, hsome]; rfl) ih

/-! ## The tokens of a text -/

theorem isSpaceByte_toUInt8 {c : Char} (hc : c.toNat < 128) :
    isSpaceByte c.toUInt8 = isSpace c := by
  have hall : ∀ n : Fin 128, isSpaceByte (Char.ofNat n).toUInt8 = isSpace (Char.ofNat n) := by
    decide
  simpa using hall ⟨c.toNat, hc⟩

theorem alike_word : Alike isWordByte isWordChar := by
  refine ⟨fun c hc => ?_, fun b hb => ?_, fun c hc => ?_⟩
  · have hall : ∀ n : Fin 128, isWordByte (Char.ofNat n).toUInt8 = isWordChar (Char.ofNat n) := by
      decide
    simpa using hall ⟨c.toNat, hc⟩
  · have hle : 128 ≤ b := UInt8.le_iff_toNat_le.2 hb
    simp [isWordByte, hle]
  · simp [isWordChar, hc]

theorem alike_line : Alike (· ≠ 10) (· ≠ '\n') := by
  refine ⟨fun c hc => ?_, fun b hb => ?_, fun c hc => ?_⟩
  · have hinj := toUInt8_inj hc (c := '\n') (by decide)
    exact decide_eq_decide.2 (not_congr hinj)
  · refine decide_eq_true ?_
    rintro rfl
    exact absurd hb (by decide)
  · refine decide_eq_true ?_
    rintro rfl
    exact absurd hc (by decide)

theorem ascii_of_not_word {c : Char} (h : isWordChar c = false) : c.toNat < 128 := by
  refine Nat.lt_of_not_le fun hc => ?_
  rw [alike_word.char c hc] at h
  cases h

theorem ascii_of_isSpace {c : Char} (h : isSpace c = true) : c.toNat < 128 := by
  simp only [isSpace, Bool.or_eq_true, decide_eq_true_eq] at h
  rcases h with (((rfl | rfl) | rfl) | rfl) | rfl <;> decide

theorem loopEnd_blank {blank : List Char} (h : ∀ c ∈ blank, isSpace c = true) (src : List UInt8) :
    loopEnd (Step.run isSpaceByte) (bytes blank ++ src) 0 =
      (bytes blank).length + loopEnd (Step.run isSpaceByte) src 0 := by
  induction blank with
  | nil => simp
  | cons c blank ih =>
    obtain ⟨hc, hblank⟩ := List.forall_mem_cons.1 h
    have hascii := ascii_of_isSpace hc
    have hone : loopEnd (Step.run isSpaceByte) ([c.toUInt8] ++ (bytes blank ++ src)) 0 =
        1 + loopEnd (Step.run isSpaceByte) (bytes blank ++ src) 0 :=
      loopEnd_of_passes (by simp [Step.run, isSpaceByte_toUInt8 hascii, hc]) rfl
    rw [Text.bytes_cons, utf8EncodeChar_of_ascii hascii, List.append_assoc, hone, ih hblank]
    simp only [List.length_append, List.length_singleton]
    omega

theorem next_blank {blank : List Char} (h : ∀ c ∈ blank, isSpace c = true) (src : List UInt8) :
    next (bytes blank ++ src) 0 = next (bytes blank ++ src) ((bytes blank).length + 0) := by
  simp only [next, loopEnd_append, loopEnd_blank h]

theorem isPrefixOf_of_ne {a c : Char} (h : c ≠ a) (as cs : List Char) :
    (a :: as).isPrefixOf (c :: cs) = false := by
  simp [List.isPrefixOf, Ne.symm h]

/-- The token that the characters `c` and `cs` begin with. -/
def leading (c : Char) (cs : List Char) : ByteToken :=
  ⟨(extent c cs).1, 0, byteLength (c :: cs.take (extent c cs).2)⟩

theorem tokenAt_slash (cs : List Char) : tokenAt (bytes ('/' :: cs)) 0 = leading '/' cs := by
  simp (disch := decide) only [tokenAt, List.drop_zero, begins_bytes, alike_word.head]
  cases cs with
  | nil => rfl
  | cons c cs =>
    by_cases h1 : c = '/'
    · subst h1
      exact congrArg (ByteToken.mk .comment 0) (alike_line.follows.loopEnd_bytes _)
    by_cases h2 : c = '*'
    · subst h2
      exact congrArg (ByteToken.mk .comment 0) (follows_blockComment.loopEnd_behind ['/', '*'] cs)
    have hline : ['/', '/'].isPrefixOf ('/' :: c :: cs) = false := isPrefixOf_of_ne h1 [] cs
    have hblock : ['/', '*'].isPrefixOf ('/' :: c :: cs) = false := isPrefixOf_of_ne h2 [] cs
    rw [leading, extent_slash (by simpa using ⟨h1, h2⟩), hline, hblock]
    rfl

theorem tokenAt_quote (cs : List Char) : tokenAt (bytes ('"' :: cs)) 0 = leading '"' cs := by
  simp (disch := decide) only [tokenAt, List.drop_zero, begins_bytes, alike_word.head]
  by_cases hq : ['"', '"'] <+: cs
  · obtain ⟨cs, rfl⟩ := hq
    exact congrArg (ByteToken.mk .literal 0) (follows_textBlock.loopEnd_behind ['"', '"', '"'] cs)
  · have hblock : ['"', '"', '"'].isPrefixOf ('"' :: cs) = false := by
      rw [Bool.eq_false_iff, Ne, List.isPrefixOf_iff_prefix, List.cons_prefix_cons]
      exact fun h => hq h.2
    rw [leading, extent_quote hq, hblock]
    exact congrArg (ByteToken.mk .literal 0)
      ((follows_quoted (q := '"') (by decide)).loopEnd_behind ['"'] cs)

theorem tokenAt_tick (cs : List Char) :
    tokenAt (bytes ('\x27' :: cs)) 0 = leading '\x27' cs := by
  simp (disch := decide) only [tokenAt, List.drop_zero, begins_bytes, alike_word.head]
  exact congrArg (ByteToken.mk .literal 0)
    ((follows_quoted (q := '\x27') (by decide)).loopEnd_behind ['\x27'] cs)

theorem tokenAt_plain {c : Char} (hs : isSpace c = false) (h1 : c ≠ '/') (h2 : c ≠ '"')
    (h3 : c ≠ '\x27') (cs : List Char) : tokenAt (bytes (c :: cs)) 0 = leading c cs := by
  simp (disch := decide) only [tokenAt, List.drop_zero, begins_bytes, alike_word.head]
  rw [isPrefixOf_of_ne h1, isPrefixOf_of_ne h1, isPrefixOf_of_ne h2, isPrefixOf_of_ne h2,
    isPrefixOf_of_ne h3, leading, extent_plain hs h1 h2 h3]
  cases hw : isWordChar c with
  | false =>
    have hone : byteLength [c] = 1 := utf8Size_of_ascii (ascii_of_not_word hw)
    exact congrArg (ByteToken.mk .mark 0) hone.symm
  | true =>
    have hstop := alike_word.follows.loopEnd_bytes (c :: cs)
    rw [runLength, List.takeWhile_cons_of_pos hw] at hstop
    exact congrArg (ByteToken.mk .word 0) hstop

/-- Where a token begins, the same token is found in the bytes and in the characters. -/
theorem tokenAt_bytes {c : Char} (hs : isSpace c = false) (cs : List Char) :
    tokenAt (bytes (c :: cs)) 0 = leading c cs := by
  by_cases h1 : c = '/'
  · subst h1
    exact tokenAt_slash cs
  by_cases h2 : c = '"'
  · subst h2
    exact tokenAt_quote cs
  by_cases h3 : c = '\x27'
  · subst h3
    exact tokenAt_tick cs
  exact tokenAt_plain hs h1 h2 h3 cs

theorem loopEnd_not_blank {c : Char} (hs : isSpace c = false) (cs : List Char) :
    loopEnd (Step.run isSpaceByte) (bytes (c :: cs)) 0 = 0 := by
  obtain ⟨b, bs, hb⟩ := exists_utf8EncodeChar_eq c
  have hfirst : isSpaceByte b = false := by
    by_cases hc : c.toNat < 128
    · rw [utf8EncodeChar_of_ascii hc] at hb
      rw [← (List.cons.inj hb).1, isSpaceByte_toUInt8 hc, hs]
    · have hhigh := high_of_not_ascii (Nat.le_of_not_lt hc) b (by simp [hb])
      cases he : isSpaceByte b with
      | false => rfl
      | true =>
        simp only [isSpaceByte, Bool.or_eq_true, decide_eq_true_eq] at he
        rcases he with (((rfl | rfl) | rfl) | rfl) | rfl <;> exact absurd hhigh (by decide)
  rw [Text.bytes_cons, hb, List.cons_append]
  exact loopEnd_of_ends (by simp [Step.run, hfirst])

theorem next_bytes {c : Char} (hs : isSpace c = false) (cs : List Char) :
    next (bytes (c :: cs)) 0 = some (leading c cs, (leading c cs).stop) := by
  have hle : (leading c cs).stop ≤ (bytes (c :: cs)).length := by
    have hsplit := congrArg byteLength (List.take_append_drop (extent c cs).2 cs)
    rw [Text.byteLength_append] at hsplit
    rw [Text.length_bytes]
    show c.utf8Size + byteLength (cs.take (extent c cs).2) ≤ c.utf8Size + byteLength cs
    omega
  have hpos : 0 < (bytes (c :: cs)).length := by
    have := c.utf8Size_pos
    rw [Text.length_bytes, Text.byteLength_cons]
    omega
  rw [next, loopEnd_not_blank hs, tokenAt_bytes hs]
  simp only [if_pos hpos, Nat.min_eq_left hle]

end Bytewise

/-- The tokens that are not blank with their bytes, where the first token begins at byte
`offset`. -/
def located (offset : Nat) : List Token → List ByteToken
  | [] => []
  | t :: ts =>
    let stop := offset + byteLength t.text
    if t.kind = .blank then located stop ts else ⟨t.kind, offset, stop⟩ :: located stop ts

theorem located_shift (n offset : Nat) (ts : List Token) :
    located (n + offset) ts = (located offset ts).map (·.shift n) := by
  induction ts generalizing offset with
  | nil => rfl
  | cons t ts ih =>
    simp only [located, Nat.add_assoc, ih]
    split <;> rfl

theorem Lexed.yields {ts : List Token} (h : Lexed ts) :
    Bytewise.Yields (bytes (join ts)) 0 (located 0 ts) := by
  induction ts with
  | nil => exact .done rfl
  | cons t ts ih =>
    obtain ⟨hreads, hts⟩ := h
    have hbehind := (ih hts).append (bytes t.text)
    rw [← located_shift, Text.length_bytes] at hbehind
    rw [located, Nat.zero_add, join_cons, Text.bytes_append]
    split
    · next hk =>
      -- the position stays where it is, but the blanks are passed over from there
      exact hbehind.of_next_eq
        (by rw [Bytewise.next_blank (hreads.isSpace_of_blank hk), Text.length_bytes])
    · next hk =>
      obtain ⟨c, text, ht, he⟩ := hreads
      have hnext := Bytewise.next_bytes (not_isSpace_of_extent he hk) (text ++ join ts)
      rw [Bytewise.leading, he, List.take_left, ← List.cons_append, ← ht,
        Text.bytes_append] at hnext
      exact .token hnext hbehind

/-- Byte by byte the tokens of the text are read. -/
theorem yields_tokens (cs : List Char) :
    Bytewise.Yields (bytes cs) 0 (located 0 (tokens cs)) := by
  have h := (lexed_tokens cs).yields
  rwa [join_tokens] at h

end MinimumRelease.Recovery
