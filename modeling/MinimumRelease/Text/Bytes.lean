/-!
# Byte offsets in text

A parser reports positions as byte offsets into the UTF-8 form of a text. Here a text is a list of
characters, and an offset is the byte length of the part before it. An offset that falls inside a
character, or behind the end, names no position, and a range with such an end has no text.
-/

namespace MinimumRelease.Text

/-- Length of the UTF-8 form. -/
def byteLength (cs : List Char) : Nat := cs.foldr (fun c n => c.utf8Size + n) 0

/-- What follows the first `n` bytes, if `n` is a character boundary. -/
def dropBytes? : Nat → List Char → Option (List Char)
  | 0, cs => some cs
  | _ + 1, [] => none
  | n + 1, c :: cs => if c.utf8Size ≤ n + 1 then dropBytes? (n + 1 - c.utf8Size) cs else none

/-- The first `n` bytes, if `n` is a character boundary. -/
def takeBytes? : Nat → List Char → Option (List Char)
  | 0, _ => some []
  | _ + 1, [] => none
  | n + 1, c :: cs =>
    if c.utf8Size ≤ n + 1 then (takeBytes? (n + 1 - c.utf8Size) cs).map (c :: ·) else none

/-- The text from byte `start` up to byte `stop`, empty when an end is not a character boundary. -/
def slice (cs : List Char) (start stop : Nat) : List Char :=
  ((dropBytes? start cs).bind (takeBytes? (stop - start))).getD []

/-- Number of line feeds that begin before byte `n`. -/
def lineFeedsBefore : Nat → List Char → Nat
  | 0, _ => 0
  | _ + 1, [] => 0
  | n + 1, c :: cs => (if c = '\n' then 1 else 0) + lineFeedsBefore (n + 1 - c.utf8Size) cs

@[simp] theorem byteLength_nil : byteLength [] = 0 := rfl

@[simp] theorem byteLength_cons (c : Char) (cs : List Char) :
    byteLength (c :: cs) = c.utf8Size + byteLength cs := rfl

@[simp] theorem byteLength_append (as bs : List Char) :
    byteLength (as ++ bs) = byteLength as + byteLength bs := by
  induction as with
  | nil => simp
  | cons c as ih => rw [List.cons_append, byteLength_cons, byteLength_cons, ih, Nat.add_assoc]

/-- The byte length of a leading part is a character boundary. -/
theorem dropBytes?_byteLength (as bs : List Char) :
    dropBytes? (byteLength as) (as ++ bs) = some bs := by
  induction as with
  | nil => cases bs <;> rfl
  | cons c as ih =>
    obtain ⟨k, hk⟩ : ∃ k, c.utf8Size + byteLength as = k + 1 :=
      ⟨c.utf8Size + byteLength as - 1, by have := c.utf8Size_pos; omega⟩
    have hrest : k + 1 - c.utf8Size = byteLength as := by omega
    rw [byteLength_cons, List.cons_append, hk, dropBytes?, if_pos (by omega), hrest, ih]

/-- The byte length of a leading part cuts off exactly that part. -/
theorem takeBytes?_byteLength (as bs : List Char) :
    takeBytes? (byteLength as) (as ++ bs) = some as := by
  induction as with
  | nil => cases bs <;> rfl
  | cons c as ih =>
    obtain ⟨k, hk⟩ : ∃ k, c.utf8Size + byteLength as = k + 1 :=
      ⟨c.utf8Size + byteLength as - 1, by have := c.utf8Size_pos; omega⟩
    have hrest : k + 1 - c.utf8Size = byteLength as := by omega
    rw [byteLength_cons, List.cons_append, hk, takeBytes?, if_pos (by omega), hrest, ih,
      Option.map_some]

/-- A range between two character boundaries holds the characters between them. -/
theorem slice_append (as bs cs : List Char) :
    slice (as ++ bs ++ cs) (byteLength as) (byteLength as + byteLength bs) = bs := by
  simp [slice, List.append_assoc, dropBytes?_byteLength, takeBytes?_byteLength]

end MinimumRelease.Text
