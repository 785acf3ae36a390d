import Mathlib.Algebra.GroupWithZero.Nat
import MinimumRelease.Text.Bytes

/-! # Patches of a text

A text that is changed in a few places is the old text with patches, which stand
apart and are listed in the order of the text (`Patched`). All other bytes stay as
they are. Where such a byte stands afterwards, and on which line, follows from the
patches before it alone: a text that is cut at the byte has been patched on either
side of the cut (`Patched.cut`). -/

namespace MinimumRelease.Text

/-! ## Bytes and lines -/

/-- The UTF-8 form. -/
def bytes (cs : List Char) : List UInt8 := cs.flatMap String.utf8EncodeChar

/-- The byte of the line feed. -/
def lineFeed : UInt8 := 10

/-- The line of byte `o`, counted from one. -/
def lineAt (bs : List UInt8) (o : Nat) : Nat := (bs.take o).count lineFeed + 1

@[simp] theorem bytes_nil : bytes [] = [] := rfl

@[simp] theorem bytes_cons (c : Char) (cs : List Char) :
    bytes (c :: cs) = String.utf8EncodeChar c ++ bytes cs := rfl

@[simp] theorem bytes_append (as bs : List Char) : bytes (as ++ bs) = bytes as ++ bytes bs :=
  List.flatMap_append

@[simp] theorem length_bytes (cs : List Char) : (bytes cs).length = byteLength cs := by
  induction cs with
  | nil => rfl
  | cons c cs ih => rw [bytes_cons, List.length_append, String.length_utf8EncodeChar, ih,
      byteLength_cons]

/-- A character is its own byte, or has none but high ones. -/
theorem high_of_mem_utf8EncodeChar {c : Char} {b : UInt8} (hb : b ∈ String.utf8EncodeChar c) :
    b.toNat = c.val.toNat ∨ 128 ≤ b.toNat := by
  simp only [String.utf8EncodeChar] at hb
  split at hb
  · rw [List.mem_singleton.1 hb, UInt8.toNat_ofNat']
    omega
  · refine .inr ?_
    split at hb
    · simp only [List.mem_cons, List.not_mem_nil, or_false] at hb
      obtain rfl | rfl := hb <;> rw [UInt8.toNat_ofNat'] <;> omega
    · split at hb
      · simp only [List.mem_cons, List.not_mem_nil, or_false] at hb
        obtain rfl | rfl | rfl := hb <;> rw [UInt8.toNat_ofNat'] <;> omega
      · simp only [List.mem_cons, List.not_mem_nil, or_false] at hb
        obtain rfl | rfl | rfl | rfl := hb <;> rw [UInt8.toNat_ofNat'] <;> omega

/-- No other character has the byte of the line feed in its form. -/
theorem count_bytes (cs : List Char) : (bytes cs).count lineFeed = cs.count '\n' := by
  induction cs with
  | nil => rfl
  | cons c cs ih =>
    rw [bytes_cons, List.count_append, ih, List.count_cons, Nat.add_comm]
    by_cases hc : c = '\n'
    · subst hc
      rfl
    · have hnone : lineFeed ∉ String.utf8EncodeChar c := by
        intro hmem
        rcases high_of_mem_utf8EncodeChar hmem with he | hhigh
        · exact hc (Char.ext (UInt32.toNat.inj he.symm))
        · exact absurd hhigh (by decide)
      rw [List.count_eq_zero.2 hnone, if_neg (by simpa using hc)]

/-! ## Patches -/

/-- At byte `start` of a text `new` is put in place of `old`. -/
structure Patch where
  start : Nat
  old : List UInt8
  new : List UInt8

namespace Patch

/-- The byte behind what is replaced. -/
def stop (p : Patch) : Nat := p.start + p.old.length

/-- Byte `o` is not replaced. -/
def Spares (o : Nat) (p : Patch) : Prop := o < p.start ∨ p.stop ≤ o

/-- The sum of `f` over the patches before byte `o`. -/
def before (f : Patch → Nat) (ps : List Patch) (o : Nat) : Nat :=
  ((ps.filter (·.stop ≤ o)).map f).sum

/-- Where byte `o` is after the patches, if they spare it. -/
def landing (ps : List Patch) (o : Nat) : Nat :=
  o + before (·.new.length) ps o - before (·.old.length) ps o

/-- The patches that take back `ps`, which begin at byte `a` of the old text and `b` of the new. -/
def undo (a b : Nat) : List Patch → List Patch
  | [] => []
  | p :: ps =>
    ⟨b + (p.start - a), p.new, p.old⟩ :: undo p.stop (b + (p.start - a) + p.new.length) ps

end Patch

/-- A text that begins at byte `a`, and what the patches make of it. -/
inductive Patched : Nat → List Patch → List UInt8 → List UInt8 → Prop
  | done (a : Nat) (bs : List UInt8) : Patched a [] bs bs
  | patch {a : Nat} {ps : List Patch} {bs cs : List UInt8} (as : List UInt8) (p : Patch)
      (start : a + as.length = p.start) (rest : Patched p.stop ps bs cs) :
      Patched a (p :: ps) (as ++ p.old ++ bs) (as ++ p.new ++ cs)

namespace Patched

variable {a b o : Nat} {p : Patch} {ps qs : List Patch} {as bs cs ds es : List UInt8}

theorem prepend (h : Patched b ps bs cs) (hab : a + as.length = b) :
    Patched a ps (as ++ bs) (as ++ cs) := by
  cases h with
  | done => exact .done a _
  | patch ds p hstart rest =>
    have h := Patched.patch (a := a) (as ++ ds) p (by rw [List.length_append]; omega) rest
    simpa only [List.append_assoc] using h

theorem start_le (h : Patched a ps bs cs) : ∀ p ∈ ps, a ≤ p.start := by
  induction h with
  | done => simp
  | @patch a ps bs cs as p hstart _ ih =>
    refine List.forall_mem_cons.2 ⟨by omega, fun q hq => ?_⟩
    have := ih q hq
    rw [Patch.stop] at this
    omega

/-- Patches of one text behind those of another. -/
theorem append (h : Patched a ps bs cs) (h' : Patched b qs ds es) (hab : a + bs.length = b) :
    Patched a (ps ++ qs) (bs ++ ds) (cs ++ es) := by
  induction h with
  | done => exact h'.prepend hab
  | @patch a ps bs cs as p hstart _ ih =>
    have hstop : p.stop + bs.length = b := by
      rw [← hab, Patch.stop, ← hstart, List.length_append, List.length_append]
      omega
    simpa only [List.append_assoc, List.cons_append] using Patched.patch as p hstart (ih hstop)

theorem undo (h : Patched a ps bs cs) (b : Nat) : Patched b (Patch.undo a b ps) cs bs := by
  induction h generalizing b with
  | done => exact .done b _
  | patch as p hstart _ ih =>
    have hat : p.start - _ = as.length := Nat.sub_eq_of_eq_add' hstart.symm
    refine .patch as ⟨b + (p.start - _), p.new, p.old⟩ (by rw [hat]) (ih _)

/-- What the patches add and take away accounts for the change of any count. -/
theorem countP (h : Patched a ps bs cs) (f : UInt8 → Bool) :
    cs.countP f + (ps.map (·.old.countP f)).sum = bs.countP f + (ps.map (·.new.countP f)).sum := by
  induction h with
  | done => rfl
  | patch as p _ _ ih =>
    simp only [List.countP_append, List.map_cons, List.sum_cons]
    omega

theorem length (h : Patched a ps bs cs) :
    cs.length + (ps.map (·.old.length)).sum = bs.length + (ps.map (·.new.length)).sum := by
  simpa using h.countP fun _ => true

/-- What stands before the text stands before all patches. -/
theorem filter_of_lt (h : Patched a ps bs cs) (hlt : o < a) :
    ps.filter (·.stop ≤ o) = [] ∧ ps.filter (o < ·.start) = ps := by
  have hstart : ∀ p ∈ ps, o < p.start := fun p hp => Nat.lt_of_lt_of_le hlt (h.start_le p hp)
  refine ⟨List.filter_eq_nil_iff.2 fun p hp => ?_, List.filter_eq_self.2 fun p hp => ?_⟩
  · have := hstart p hp
    rw [Patch.stop, decide_eq_true_eq]
    omega
  · exact decide_eq_true (hstart p hp)

/-- A text that is cut at a byte that the patches spare is patched on either side of the cut. -/
theorem cut (h : Patched a ps bs cs) (hle : a ≤ o) (hlen : o ≤ a + bs.length)
    (hspares : ∀ p ∈ ps, p.Spares o) : ∃ xs ys, cs = xs ++ ys ∧
      Patched a (ps.filter (·.stop ≤ o)) (bs.take (o - a)) xs ∧
      Patched o (ps.filter (o < ·.start)) (bs.drop (o - a)) ys := by
  induction h with
  | done a bs =>
    exact ⟨bs.take (o - a), bs.drop (o - a), (List.take_append_drop _ _).symm, .done _ _,
      .done _ _⟩
  | @patch a ps bs cs as p hstart rest ih =>
    obtain ⟨hp, hps⟩ := List.forall_mem_cons.1 hspares
    have hstop : p.stop = a + (as ++ p.old).length := by
      rw [Patch.stop, List.length_append]
      omega
    rcases hp with hlt | hge
    · -- the cut is before the patch, and so before all patches
      obtain ⟨hdone, hahead⟩ := rest.filter_of_lt (o := o) (by rw [Patch.stop]; omega)
      have hnone : (p :: ps).filter (·.stop ≤ o) = [] := by
        rw [List.filter_cons_of_neg, hdone]
        rw [Patch.stop, decide_eq_true_eq]
        omega
      have hall : (p :: ps).filter (o < ·.start) = p :: ps := by
        rw [List.filter_cons_of_pos (by simpa using hlt), hahead]
      have hin : o - a ≤ as.length := by omega
      rw [hnone, hall, List.append_assoc as p.old, List.take_append_of_le_length hin,
        List.drop_append_of_le_length hin]
      refine ⟨as.take (o - a), as.drop (o - a) ++ p.new ++ cs, ?_, .done _ _, ?_⟩
      · rw [← List.append_assoc, ← List.append_assoc, List.take_append_drop]
      · rw [← List.append_assoc]
        exact .patch _ p (by rw [List.length_drop]; omega) rest
    · rw [List.length_append] at hlen
      obtain ⟨xs, ys, rfl, hxs, hys⟩ := ih hge (by omega) hps
      have hdone : (p :: ps).filter (·.stop ≤ o) = p :: ps.filter (·.stop ≤ o) :=
        List.filter_cons_of_pos (by simpa using hge)
      have hahead : (p :: ps).filter (o < ·.start) = ps.filter (o < ·.start) := by
        refine List.filter_cons_of_neg ?_
        rw [Patch.stop] at hge
        simp only [decide_eq_true_eq]
        omega
      have hsplit : o - a = (as ++ p.old).length + (o - p.stop) := by omega
      rw [hdone, hahead, hsplit, List.take_length_add_append, List.drop_length_add_append]
      exact ⟨as ++ p.new ++ xs, ys, (List.append_assoc ..).symm, .patch as p hstart hxs, hys⟩

theorem head? (h : Patched a ps bs cs) (hps : ∀ p ∈ ps, a < p.start) : cs.head? = bs.head? := by
  cases h with
  | done => rfl
  | patch as p hstart _ =>
    have hlt := hps p List.mem_cons_self
    cases as with
    | nil => simp at hstart; omega
    | cons x as => rfl

theorem length_cut {xs : List UInt8} (h : Patched 0 (ps.filter (·.stop ≤ o)) (bs.take o) xs)
    (hlen : o ≤ bs.length) : xs.length = Patch.landing ps o := by
  have hlength := h.length
  rw [List.length_take_of_le hlen] at hlength
  rw [Patch.landing, Patch.before, Patch.before]
  omega

/-- **A byte that the patches spare** is still there, and its line changes by the line feeds that
the patches before it add and take away. -/
theorem kept (h : Patched 0 ps bs cs) (hlen : o < bs.length) (hspares : ∀ p ∈ ps, p.Spares o) :
    cs[Patch.landing ps o]? = bs[o]? ∧
      lineAt cs (Patch.landing ps o) + Patch.before (·.old.count lineFeed) ps o =
        lineAt bs o + Patch.before (·.new.count lineFeed) ps o := by
  obtain ⟨xs, ys, rfl, hxs, hys⟩ := h.cut (Nat.zero_le o) (by omega) hspares
  rw [Nat.sub_zero] at hxs hys
  rw [← length_cut hxs (Nat.le_of_lt hlen)]
  constructor
  · have hhead := hys.head? fun p hp => by simpa using (List.mem_filter.1 hp).2
    rw [List.getElem?_append_right (Nat.le_refl _), Nat.sub_self, ← List.head?_eq_getElem?, hhead,
      List.head?_drop]
  · have hcount := hxs.countP (· == lineFeed)
    rw [lineAt, lineAt, List.take_left, Patch.before, Patch.before]
    simp only [List.count_eq_countP]
    omega

/-- The bytes that the patches spare keep their order. -/
theorem landing_lt {o' : Nat} (h : Patched 0 ps bs cs) (hlt : o < o') (hlen : o' < bs.length)
    (hspares : ∀ p ∈ ps, p.Spares o) (hspares' : ∀ p ∈ ps, p.Spares o') :
    Patch.landing ps o < Patch.landing ps o' := by
  obtain ⟨xs, ys, rfl, hxs, -⟩ := h.cut (Nat.zero_le o') (by omega) hspares'
  have hlen' : o' ≤ bs.length := Nat.le_of_lt hlen
  rw [Nat.sub_zero] at hxs
  rw [← length_cut hxs hlen']
  obtain ⟨us, vs, rfl, hus, hvs⟩ := hxs.cut (o := o) (Nat.zero_le o)
    (by rw [List.length_take_of_le hlen']; omega)
    fun p hp => hspares p (List.mem_filter.1 hp).1
  -- the byte at `o` stands behind `us`
  have hhead := hvs.head? fun p hp => by simpa using (List.mem_filter.1 hp).2
  have hpos : vs ≠ [] := by
    rintro rfl
    simp only [Nat.sub_zero, List.head?_nil, List.head?_drop] at hhead
    rw [eq_comm, List.getElem?_eq_none_iff, List.length_take_of_le hlen'] at hhead
    omega
  have hfilter : (ps.filter (·.stop ≤ o')).filter (·.stop ≤ o) = ps.filter (·.stop ≤ o) := by
    rw [List.filter_filter]
    refine List.filter_congr fun p _ => ?_
    by_cases hp : p.stop ≤ o
    · simp [hp, Nat.le_of_lt (Nat.lt_of_le_of_lt hp hlt)]
    · simp [hp]
  rw [hfilter, Nat.sub_zero, List.take_take, Nat.min_eq_left (Nat.le_of_lt hlt)] at hus
  rw [← length_cut hus (by omega), List.length_append]
  have := List.length_pos_iff.2 hpos
  omega

end Patched

end MinimumRelease.Text
