import MinimumRelease.Proofs.Toml.Written

/-! # Documents that are read line by line

A document of plain tables is a header for each table and below it a line for each of
its entries. Such lines are read one by one (`ReadAs`), and what they say builds the
tables again, with their entries in the order of the lines (`ofStatements_tables`). -/

namespace MinimumRelease.Toml

/-! ## Keys -/

/-- A name that needs no quotes as a key. -/
structure BareKey (name : String) : Prop where
  chars : ∀ c ∈ name.toList, isKeyChar c = true
  nonempty : name.toList ≠ []

instance (name : String) : Decidable (BareKey name) :=
  decidable_of_iff (name.toList.all isKeyChar = true ∧ name.toList ≠ [])
    ⟨fun h => ⟨List.all_eq_true.1 h.1, h.2⟩, fun h => ⟨List.all_eq_true.2 h.chars, h.nonempty⟩⟩

theorem BareKey.cons {name : String} (h : BareKey name) :
    ∃ c cs, name.toList = c :: cs ∧ isKeyChar c = true := by
  cases hname : name.toList with
  | nil => exact absurd hname h.nonempty
  | cons c cs => exact ⟨c, cs, rfl, h.chars c (hname ▸ List.mem_cons_self)⟩

theorem isWs_of_isKeyChar {c : Char} (h : isKeyChar c = true) : isWs c = false := by
  simp [isWs, ne_of_sort h (x := ' ') rfl, ne_of_sort h (x := '\t') rfl]

theorem keyPart_bare {name : String} (h : BareKey name) {x : Char} (hx : isKeyChar x = false)
    (rest : List Char) : keyPart (name.toList ++ x :: rest) = some (name, x :: rest) := by
  obtain ⟨c, cs, hname, hc⟩ := h.cons
  have htake : (name.toList ++ x :: rest).takeWhile isKeyChar = name.toList := by
    rw [List.takeWhile_append_of_pos h.chars, List.takeWhile_cons_of_neg (by simp [hx]),
      List.append_nil]
  have hdrop : (name.toList ++ x :: rest).dropWhile isKeyChar = x :: rest := by
    rw [List.dropWhile_append_of_pos h.chars, List.dropWhile_cons_of_neg (by simp [hx])]
  have hquote : (c = '"' || c = '\x27') = false := by
    simp [ne_of_sort hc (x := '"') rfl, ne_of_sort hc (x := '\x27') rfl]
  have hword : name.toList.isEmpty = false := by simp [hname]
  unfold keyPart
  rw [hname, List.cons_append] at htake hdrop ⊢
  simp only [hquote, htake, hdrop, ← hname, hword, Bool.false_eq_true, if_false,
    String.ofList_toList]

/-- A key without a dot ends with its name and the blanks behind it. -/
theorem key_bare {name : String} (h : BareKey name) {x : Char} (hx : isKeyChar x = false)
    (rest : List Char) (hdot : ∀ cs, (x :: rest).dropWhile isWs ≠ '.' :: cs) :
    key (name.toList ++ x :: rest) = some (([], name), (x :: rest).dropWhile isWs) := by
  obtain ⟨c, cs, hname, hc⟩ := h.cons
  have hbegin : (name.toList ++ x :: rest).dropWhile isWs = name.toList ++ x :: rest := by
    rw [hname, List.cons_append, List.dropWhile_cons_of_neg (by simp [isWs_of_isKeyChar hc])]
  have hparts : keyParts ((x :: rest).length + 1) (x :: rest) =
      some ([], (x :: rest).dropWhile isWs) := by
    unfold keyParts
    split
    · next he => exact absurd he (hdot _)
    · rfl
  rw [key, hbegin, keyPart_bare h hx]
  simp only [hparts]
  rfl

/-! ## Lines -/

/-- The text consists of lines that say the given statements. -/
def ReadAs (cs : List Char) (ss : List Statement) : Prop :=
  ∃ lines, lines ≤ cs.length ∧ ∀ total fuel rest, statements total (fuel + lines) (cs ++ rest) =
    (statements total fuel rest).map (ss ++ ·)

theorem readAs_nil : ReadAs [] [] := by
  refine ⟨0, Nat.le_refl 0, fun total fuel rest => ?_⟩
  show statements total fuel rest = _
  cases statements total fuel rest <;> rfl

theorem ReadAs.append {cs cs' : List Char} {ss ss' : List Statement} (h : ReadAs cs ss)
    (h' : ReadAs cs' ss') : ReadAs (cs ++ cs') (ss ++ ss') := by
  obtain ⟨n, hn, hread⟩ := h
  obtain ⟨n', hn', hread'⟩ := h'
  refine ⟨n' + n, by rw [List.length_append]; omega, fun total fuel rest => ?_⟩
  rw [List.append_assoc, ← Nat.add_assoc, hread, hread']
  cases statements total fuel rest with
  | error e => rfl
  | ok more => simp [Except.map]

/-- A line that is not empty says one statement. -/
theorem readAs_line (c : Char) (cs : List Char) (s : Statement) (hws : isWs c = false)
    (hc : (c = '\n' || c = '\r' || c = '#') = false)
    (hs : ∀ rest, statement (c :: cs ++ '\n' :: rest) = some (s, '\n' :: rest)) :
    ReadAs (c :: cs ++ ['\n']) [s] := by
  refine ⟨1, by simp, fun total fuel rest => ?_⟩
  have hsplit : c :: cs ++ ['\n'] ++ rest = c :: (cs ++ '\n' :: rest) := by simp
  have hline : lineEnd? ('\n' :: rest) = some rest := rfl
  have hstatement := hs rest
  rw [List.cons_append] at hstatement
  rw [hsplit, statements, List.dropWhile_cons_of_neg (by simp [hws])]
  simp only [hc, hstatement, hline, Bool.false_eq_true, if_false]
  cases statements total fuel rest <;> rfl

theorem readAs_blank : ReadAs ['\n'] [] := by
  refine ⟨1, Nat.le_refl 1, fun total fuel rest => ?_⟩
  show statements total fuel rest = _
  cases statements total fuel rest <;> rfl

theorem readAs_header {name : String} (h : BareKey name) :
    ReadAs ('[' :: name.toList ++ ']' :: ['\n']) [.header [] name] := by
  have hline := readAs_line '[' (name.toList ++ [']']) (.header [] name)
    (by decide) (by decide) ?_
  · simpa using hline
  · intro rest
    obtain ⟨c, cs, hname, hc⟩ := h.cons
    have hkey := key_bare h (x := ']') (by decide) ('\n' :: rest) (by simp [isWs])
    have hhead : headerKey [']'] (name.toList ++ ']' :: '\n' :: rest) =
        some (([], name), '\n' :: rest) := by
      rw [headerKey, hkey]
      rfl
    have hsplit : '[' :: (name.toList ++ [']']) ++ '\n' :: rest =
        '[' :: (name.toList ++ ']' :: '\n' :: rest) := by simp
    rw [hsplit]
    unfold statement
    split
    · next he =>
      rw [hname] at he
      exact absurd (List.cons.inj (List.cons.inj he).2).1 (ne_of_sort hc rfl)
    · next he =>
      rw [← (List.cons.inj he).2, hhead]
      rfl
    · next he => exact absurd rfl (he _)

theorem readAs_entry {name : String} {text : List Char} {v : Value} (h : BareKey name)
    (hv : Written text v) :
    ReadAs (name.toList ++ " = ".toList ++ text ++ ['\n']) [.entry [] name v] := by
  obtain ⟨c, cs, hname, hc⟩ := h.cons
  obtain ⟨d, ds, htext, hd⟩ := hv.begins
  have hline := readAs_line c (cs ++ " = ".toList ++ text) (.entry [] name v)
    (isWs_of_isKeyChar hc) ?_ ?_
  · simpa [hname] using hline
  · simp [ne_of_sort hc (x := '\n') rfl, ne_of_sort hc (x := '\r') rfl,
      ne_of_sort hc (x := '#') rfl]
  · intro rest
    have hkey := key_bare h (x := ' ') (by decide) ('=' :: ' ' :: (text ++ '\n' :: rest))
      (by simp [isWs])
    have hequals : (' ' :: '=' :: ' ' :: (text ++ '\n' :: rest)).dropWhile isWs =
        '=' :: ' ' :: (text ++ '\n' :: rest) := rfl
    have hvalue : (' ' :: (text ++ '\n' :: rest)).dropWhile isWs = text ++ '\n' :: rest := by
      rw [List.dropWhile_cons_of_pos (by decide), htext, List.cons_append,
        List.dropWhile_cons_of_neg (by simp [hd])]
    have hpair : pair (value (nestingLimit - 1))
        (name.toList ++ ' ' :: '=' :: ' ' :: (text ++ '\n' :: rest)) =
          some (([], name, v), '\n' :: rest) := by
      simp only [pair, hkey, hequals, hvalue, hv.reads, Option.map_some]
    have hsplit : c :: (cs ++ " = ".toList ++ text) ++ '\n' :: rest =
        name.toList ++ ' ' :: '=' :: ' ' :: (text ++ '\n' :: rest) := by simp [hname]
    rw [hsplit]
    rw [hname, List.cons_append] at hpair ⊢
    unfold statement
    split
    · next he => exact absurd (List.cons.inj he).1 (ne_of_sort hc rfl)
    · next he => exact absurd (List.cons.inj he).1 (ne_of_sort hc rfl)
    · rw [hpair]
      rfl

/-- A document of such lines is the table that the statements build. -/
theorem parse_of_readAs {text : String} {ss : List Statement} {entries : Entries}
    (h : ReadAs text.toList ss) (hmark : ∀ cs, text.toList ≠ '\ufeff' :: cs)
    (hss : Entries.ofStatements ss = some entries) : parse text = .ok entries := by
  obtain ⟨lines, hle, hread⟩ := h
  have hfuel : text.toList.length + 1 = (text.toList.length - lines + 1) + lines := by omega
  have hall :
      statements (text.toList.count '\n') (text.toList.length + 1) text.toList = .ok ss := by
    have hrest := hread (text.toList.count '\n') (text.toList.length - lines + 1) []
    rw [List.append_nil, ← hfuel] at hrest
    rw [hrest]
    simp [statements, Except.map]
  unfold parse
  split
  · next he => exact absurd he (hmark _)
  · simp only [hall, hss]

/-! ## Tables -/

namespace Entries

theorem put_append {entries : Entries} {k : String} (h : entries.get? k = none) (v : Value)
    (more : Entries) : put k v (entries ++ more) = entries ++ put k v more := by
  induction entries with
  | nil => rfl
  | cons e entries ih =>
    obtain ⟨k', w⟩ := e
    have hne : k' ≠ k := by
      intro he
      simp [get?, he] at h
    have hrest : get? entries k = none := by
      rwa [get?, List.lookup_cons, beq_false_of_ne (Ne.symm hne)] at h
    rw [List.cons_append, put, if_neg hne, ih hrest, List.cons_append]

theorem get?_concat {entries : Entries} {k : String} (h : entries.get? k = none) (v : Value) :
    (entries ++ [(k, v)]).get? k = some v := by
  rw [get?, List.lookup_append, ← get?, h]
  simp

theorem get?_eq_none_of_notMem {entries : Entries} {k : String} (h : k ∉ entries.map Prod.fst) :
    entries.get? k = none := by
  rw [get?, List.lookup_eq_none_iff]
  intro e he
  have hne : k ≠ e.1 := fun hk => h (hk ▸ List.mem_map_of_mem he)
  simpa using hne

/-- The statements of the lines below a header. -/
def lines (entries : Entries) : List Statement := entries.map fun e => .entry [] e.1 e.2

/-- Lines below a header add their entries to its table. -/
theorem addAll_lines {entries : Entries} {k : String} (hk : entries.get? k = none)
    {es new : Entries} (hnew : ((es ++ new).map Prod.fst).Nodup) (rest : List Statement) :
    addAll [k] (entries ++ [(k, .table .header es)]) (new.lines ++ rest) =
      addAll [k] (entries ++ [(k, .table .header (es ++ new))]) rest := by
  induction new generalizing es with
  | nil => simp [lines]
  | cons e new ih =>
    obtain ⟨key, v⟩ := e
    have hkey : es.get? key = none := by
      refine get?_eq_none_of_notMem fun hmem => ?_
      rw [List.map_append, List.nodup_append] at hnew
      exact hnew.2.2 _ hmem _ List.mem_cons_self rfl
    have hadd : add [k] (entries ++ [(k, .table .header es)]) (.entry [] key v) =
        some ([k], entries ++ [(k, .table .header (es ++ [(key, v)]))]) := by
      have hput : put key v es = es ++ [(key, v)] := by
        have := put_append hkey v []
        rwa [List.append_nil] at this
      have hchange : put k (.table .header (es ++ [(key, v)]))
          (entries ++ [(k, .table .header es)]) =
            entries ++ [(k, .table .header (es ++ [(key, v)]))] := by
        rw [put_append hk, put, if_pos rfl]
      simp only [add, reach, get?_concat hk, addEntry, define, hkey, hput, Option.map_some, hchange]
      rfl
    have hsplit : es ++ [(key, v)] ++ new = es ++ (key, v) :: new := by simp
    rw [← hsplit] at hnew ⊢
    rw [lines, List.map_cons, List.cons_append, addAll, hadd]
    exact ih hnew

/-- A header and the lines below it make a table. -/
theorem addAll_table (opened : Path) {entries es : Entries} {k : String}
    (hk : entries.get? k = none) (hes : (es.map Prod.fst).Nodup) (rest : List Statement) :
    addAll opened entries (.header [] k :: es.lines ++ rest) =
      addAll [k] (entries ++ [(k, .table .header es)]) rest := by
  have hadd : add opened entries (.header [] k) =
      some ([k], entries ++ [(k, .table .header [])]) := by
    have hput : put k (.table .header []) entries = entries ++ [(k, .table .header [])] := by
      have := put_append hk (.table .header []) []
      rwa [List.append_nil] at this
    simp only [add, openTable, reach, hk, hput, Option.map_some]
    rfl
  rw [← List.nil_append es] at hes ⊢
  rw [List.cons_append, addAll, hadd]
  exact addAll_lines hk hes rest

/-- **Plain tables are built again** from their headers and lines. -/
theorem ofStatements_tables {a b : String} {as bs : Entries} (hab : a ≠ b)
    (ha : (as.map Prod.fst).Nodup) (hb : (bs.map Prod.fst).Nodup) :
    ofStatements (.header [] a :: as.lines ++ .header [] b :: bs.lines) =
      some [(a, .table .header as), (b, .table .header bs)] := by
  have hfirst : get? [] a = none := rfl
  have hsecond : get? [(a, .table .header as)] b = none :=
    get?_eq_none_of_notMem (by simpa using hab.symm)
  have hlast := addAll_table [a] hsecond hb []
  rw [List.append_nil] at hlast
  rw [ofStatements, addAll_table [] hfirst ha]
  exact hlast

end Entries

end MinimumRelease.Toml
