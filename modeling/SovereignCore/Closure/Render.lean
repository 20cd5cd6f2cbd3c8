import SovereignCore.Closure.Manifest

/-!
# Manifests as text

* `render` : the text of a manifest; `rows` : the words of its lines;
* `parseRows` : each line sets its field, each dependency joins the table;
* `parse_render_iff` : exactly the well formed manifests of at most 64 KiB are read back.
-/

namespace SovereignCore.Closure.Manifest

open Std Text

def render (m : Manifest) : String :=
  m.deps.toList.foldl (fun s d =>
      match d.2 with
      | some p => s ++ s!"dep {d.1} {p}\n"
      | none => s ++ s!"dep {d.1}\n")
    s!"{header}\ncomponent {m.component}\nprofile {m.profile}\nreceipt {m.receipt}\nsource {m.source}\n"

/-! ## Lines of words -/

def Word (w : List Char) : Prop := w ≠ [] ∧ ∀ c ∈ w, 33 ≤ c.toNat ∧ c.toNat ≤ 126

def line (ws : List (List Char)) : List Char := [' '].intercalate ws

section Words

variable {w k v p : List Char} {c : Char}

theorem not_isWhitespace (h : 33 ≤ c.toNat ∧ c.toNat ≤ 126) : isWhitespace c = false := by
  simp only [isWhitespace, List.mem_cons, List.not_mem_nil, or_false, decide_eq_false_iff_not]
  omega

theorem Word.notMem (h : Word w) (hc : c.toNat < 33) : c ∉ w := fun hmem => by
  have := (h.2 c hmem).1
  omega

theorem toNat_of_isAlphanum (h : c.isAlphanum = true) : 33 ≤ c.toNat ∧ c.toNat ≤ 126 := by
  simp only [Char.isAlphanum, Char.isAlpha, Char.isUpper, Char.isLower, Char.isDigit, Bool.or_eq_true,
    Bool.and_eq_true, decide_eq_true_eq, UInt32.le_iff_toNat_le, ge_iff_le] at h
  have hval : c.toNat = c.val.toNat := rfl
  simp at h
  omega

theorem word_of_isName (h : isName w) : Word w := by
  simp only [isName, Bool.decide_and, Bool.and_eq_true, decide_eq_true_eq, List.all_eq_true] at h
  refine ⟨h.1, fun c hc => ?_⟩
  obtain ha | rfl | rfl | rfl := h.2 c hc
  · exact toNat_of_isAlphanum ha
  · decide
  · decide
  · decide

theorem word_of_isHex64 (h : isHex64 w) : Word w := by
  simp only [isHex64, Bool.decide_and, Bool.and_eq_true, decide_eq_true_eq, List.all_eq_true] at h
  refine ⟨fun hnil => by simp [hnil] at h, fun c hc => ?_⟩
  obtain hd | ⟨ha, hf⟩ := h.2 c hc
  · exact toNat_of_isAlphanum (by simp [Char.isAlphanum, hd])
  · have ha' : 'a'.toNat ≤ c.toNat := ha
    have hf' : c.toNat ≤ 'f'.toNat := hf
    have : 'a'.toNat = 97 := rfl
    have : 'f'.toNat = 102 := rfl
    omega

theorem word_of_isSource (h : isSource w) : Word w := by
  simp only [isSource, Bool.decide_and, Bool.and_eq_true, decide_eq_true_eq, List.isPrefixOf_iff_prefix] at h
  obtain ⟨⟨rest, rfl⟩, hhex⟩ := h
  rw [List.drop_left] at hhex
  have hkey : ∀ c ∈ "blake3:".toList, 33 ≤ c.toNat ∧ c.toNat ≤ 126 := by simp
  refine ⟨by simp, fun c hc => ?_⟩
  rcases List.mem_append.1 hc with hc | hc
  · exact hkey c hc
  · exact (word_of_isHex64 hhex).2 c hc

theorem splitOn_line {ws : List (List Char)} (h : ∀ w ∈ ws, Word w) (hne : ws ≠ []) : (line ws).splitOn ' ' = ws :=
  List.splitOn_intercalate ' ' (fun w hw => (h w hw).notMem (by decide)) hne

theorem trim_word {mid : List Char} (hk : Word k) (hv : Word v) : trim (k ++ mid ++ v) = k ++ mid ++ v := by
  obtain ⟨a, k, rfl⟩ := List.exists_cons_of_ne_nil hk.1
  obtain ⟨v, z, rfl⟩ := List.eq_nil_or_concat v |>.resolve_left hv.1
  have ha := not_isWhitespace (hk.2 a List.mem_cons_self)
  have hz := not_isWhitespace (hv.2 z (by simp))
  simp [trim, ha, hz]

end Words

/-! ## Reading the lines back -/

section Rows

variable {n : Nat} {d : Draft} {k v p : List Char}

theorem refuseIf_false {q : Prop} [Decidable q] (h : ¬ q) (text : String) : refuseIf q text = .ok () := if_neg h

/-- A line of words passes the checks of its spaces. -/
structure Line (ws : List (List Char)) : Prop where
  words : ∀ w ∈ ws, Word w
  blank : ¬ (line ws = [] ∨ line ws ≠ trim (line ws))
  visible : ∀ c ∈ line ws, 32 ≤ c.toNat

theorem Word.visible (hk : Word k) : ∀ c ∈ k, 32 ≤ c.toNat := fun c hc => Nat.le_of_succ_le (hk.2 c hc).1

theorem Line.two (hk : Word k) (hv : Word v) : Line [k, v] := by
  have hline : line [k, v] = k ++ [' '] ++ v := by simp [line, List.intercalate]
  refine ⟨by simp [hk, hv], ?_, ?_⟩
  · rw [hline, trim_word hk hv]
    simp
  · simpa [hline, or_imp, forall_and] using ⟨hk.visible, hv.visible⟩

theorem Line.three (hk : Word k) (hv : Word v) (hp : Word p) : Line [k, v, p] := by
  have hline : line [k, v, p] = k ++ (' ' :: v ++ [' ']) ++ p := by simp [line, List.intercalate]
  refine ⟨by simp [hk, hv, hp], ?_, ?_⟩
  · rw [hline, trim_word hk hp]
    simp
  · simpa [hline, or_imp, forall_and] using ⟨hk.visible, hv.visible, hp.visible⟩

theorem Line.gaps {ws : List (List Char)} (h : Line ws) : [] ∉ ws := fun hmem => (h.words [] hmem).1 rfl

theorem parseLine_component (hv : isName v) (hd : d.component = none) :
    parseLine n (line ["component".toList, v]) d = .ok { d with component := some (String.ofList v) } := by
  have h : Line ["component".toList, v] := .two ⟨by simp, by simp⟩ (word_of_isName hv)
  simp only [parseLine, refuseIf_false h.blank, splitOn_line h.words (List.cons_ne_nil _ _), refuseIf_false h.gaps,
    Result.ok_bind]
  simp [setOnce, refuseIf, hv, hd, Result.ok_bind]

theorem parseLine_profile (hv : isName v) (hd : d.profile = none) :
    parseLine n (line ["profile".toList, v]) d = .ok { d with profile := some (String.ofList v) } := by
  have h : Line ["profile".toList, v] := .two ⟨by simp, by simp⟩ (word_of_isName hv)
  simp only [parseLine, refuseIf_false h.blank, splitOn_line h.words (List.cons_ne_nil _ _), refuseIf_false h.gaps,
    Result.ok_bind]
  simp [setOnce, refuseIf, hv, hd, Result.ok_bind]

theorem parseLine_receipt (hv : isHex64 v) (hd : d.receipt = none) :
    parseLine n (line ["receipt".toList, v]) d = .ok { d with receipt := some (String.ofList v) } := by
  have h : Line ["receipt".toList, v] := .two ⟨by simp, by simp⟩ (word_of_isHex64 hv)
  simp only [parseLine, refuseIf_false h.blank, splitOn_line h.words (List.cons_ne_nil _ _), refuseIf_false h.gaps,
    Result.ok_bind]
  simp [setOnce, refuseIf, hv, hd, Result.ok_bind]

theorem parseLine_source (hv : isSource v) (hd : d.source = none) :
    parseLine n (line ["source".toList, v]) d = .ok { d with source := some (String.ofList v) } := by
  have h : Line ["source".toList, v] := .two ⟨by simp, by simp⟩ (word_of_isSource hv)
  simp only [parseLine, refuseIf_false h.blank, splitOn_line h.words (List.cons_ne_nil _ _), refuseIf_false h.gaps,
    Result.ok_bind]
  simp [setOnce, refuseIf, hv, hd, Result.ok_bind]

def depWords (x : String × Option String) : List (List Char) :=
  "dep".toList :: x.1.toList :: (x.2.map String.toList).toList

theorem line_dep {x : String × Option String} (hx : isName x.1.toList) (hpin : ∀ q, x.2 = some q → isHex64 q.toList) :
    Line (depWords x) := by
  obtain ⟨name, pin⟩ := x
  cases pin with
  | none => exact .two ⟨by simp, by simp⟩ (word_of_isName hx)
  | some q => exact .three ⟨by simp, by simp⟩ (word_of_isName hx) (word_of_isHex64 (hpin q rfl))

theorem parseLine_dep {x : String × Option String} (hx : isName x.1.toList) (hpin : ∀ q, x.2 = some q → isHex64 q.toList)
    (hnew : x.1 ∉ d.deps) : parseLine n (line (depWords x)) d = .ok { d with deps := d.deps.insert x.1 x.2 } := by
  have h := line_dep hx hpin
  simp only [parseLine, refuseIf_false h.blank, splitOn_line h.words (List.cons_ne_nil _ _), refuseIf_false h.gaps,
    Result.ok_bind]
  obtain ⟨name, pin⟩ := x
  cases pin with
  | none => simp [depWords, refuseIf, addDep, hx, hnew, Result.ok_bind]
  | some q => simp [depWords, refuseIf, addDep, hx, hpin q rfl, hnew, Result.ok_bind]

theorem parseLines_deps {l : List (String × Option String)} (hnd : (l.map Prod.fst).Nodup)
    (hl : ∀ x ∈ l, isName x.1.toList ∧ ∀ q, x.2 = some q → isHex64 q.toList) (hnew : ∀ x ∈ l, x.1 ∉ d.deps) :
    ∃ t : ExtTreeMap String (Option String), parseLines n (l.map fun x => line (depWords x)) d = .ok { d with deps := t } ∧
      ∀ (name : String) (pin : Option String), t[name]? = some pin ↔ d.deps[name]? = some pin ∨ (name, pin) ∈ l := by
  induction l generalizing n d with
  | nil => exact ⟨d.deps, rfl, by simp⟩
  | cons x l ih =>
    obtain ⟨hfirst, hnd⟩ := List.nodup_cons.1 hnd
    obtain ⟨hx, hpin⟩ := hl x List.mem_cons_self
    have hxnew := hnew x List.mem_cons_self
    obtain ⟨t, ht, hget⟩ := ih (n := n + 1) (d := { d with deps := d.deps.insert x.1 x.2 }) hnd
      (fun y hy => hl y (List.mem_cons_of_mem x hy)) fun y hy => by
        have hne : x.1 ≠ y.1 := fun heq => hfirst (heq ▸ List.mem_map_of_mem hy)
        simpa [ExtTreeMap.mem_insert, hne] using hnew y (List.mem_cons_of_mem x hy)
    refine ⟨t, ?_, fun name pin => ?_⟩
    · rw [List.map_cons, parseLines, parseLine_dep hx hpin hxnew]
      exact ht
    · rw [hget, Table.get_insert, List.mem_cons]
      obtain ⟨first, firstPin⟩ := x
      split_ifs with heq
      · subst heq
        simp [Table.notMem_iff.1 hxnew, eq_comm]
      · simp [Ne.symm heq]

end Rows

/-! ## The whole text -/

def rows (m : Manifest) : List (List Char) :=
  line ["component".toList, m.component.toList] :: line ["profile".toList, m.profile.toList] ::
    line ["receipt".toList, m.receipt.toList] :: line ["source".toList, m.source.toList] ::
    m.deps.toList.map fun x => line (depWords x)

theorem toList_deps (l : List (String × Option String)) (s : String) :
    (l.foldl (fun s d =>
      match d.2 with
      | some p => s ++ s!"dep {d.1} {p}\n"
      | none => s ++ s!"dep {d.1}\n") s).toList =
      s.toList ++ (l.map fun x => line (depWords x)).flatMap (· ++ ['\n']) := by
  induction l generalizing s with
  | nil => simp
  | cons x l ih =>
    rw [List.foldl_cons, ih]
    obtain ⟨name, pin⟩ := x
    cases pin with
    | none => simp [line, depWords, List.intercalate, toString]
    | some q => simp [line, depWords, List.intercalate, toString]

theorem toList_render (m : Manifest) : (render m).toList = (header.toList :: m.rows).flatMap (· ++ ['\n']) := by
  unfold render
  rw [toList_deps]
  simp [rows, line, List.intercalate, toString, header]

theorem flatMap_lines {x : Char} : ∀ {ls : List (List Char)}, ls ≠ [] → ls.flatMap (· ++ [x]) = [x].intercalate ls ++ [x]
  | [l], _ => by simp
  | l :: l' :: ls, _ => by
    rw [List.flatMap_cons, flatMap_lines (List.cons_ne_nil l' ls), List.intercalate_cons_cons]
    simp

theorem parseLines_rows {m : Manifest} (h : m.WellFormed) : ∃ d, parseLines 2 m.rows {} = .ok d ∧ d.finish = .ok m := by
  have hnd : (m.deps.toList.map Prod.fst).Nodup :=
    List.pairwise_map.2 (ExtTreeMap.distinct_keys_toList.imp fun hne heq => hne (by simp [heq]))
  obtain ⟨t, ht, hget⟩ := parseLines_deps (n := 6)
    (d := ⟨some m.component, some m.profile, some m.receipt, some m.source, ∅⟩) hnd
    (fun x hx => h.deps x.1 x.2 (ExtTreeMap.mem_toList_iff_getElem?_eq_some.1 hx)) fun x _ => ExtTreeMap.not_mem_empty
  have hdeps : t = m.deps := by
    refine ExtTreeMap.ext_getElem? fun name => Option.ext fun pin => ?_
    rw [hget, ExtTreeMap.mem_toList_iff_getElem?_eq_some]
    simp
  subst hdeps
  refine ⟨⟨some m.component, some m.profile, some m.receipt, some m.source, m.deps⟩, ?_, rfl⟩
  rw [rows, parseLines, parseLine_component h.component rfl]
  change parseLines 3 _ _ = _
  rw [parseLines, parseLine_profile h.profile rfl]
  change parseLines 4 _ _ = _
  rw [parseLines, parseLine_receipt h.receipt rfl]
  change parseLines 5 _ _ = _
  rw [parseLines, parseLine_source h.source rfl]
  change parseLines 6 _ _ = _
  simpa only [String.ofList_toList] using ht

theorem visible_rows {m : Manifest} (h : m.WellFormed) : ∀ l ∈ header.toList :: m.rows, ∀ c ∈ l, 32 ≤ c.toNat := by
  have hkeyed : ∀ {s : String} {v : List Char}, Word s.toList → Word v → ∀ c ∈ line [s.toList, v], 32 ≤ c.toNat :=
    fun hs hv => (Line.two hs hv).visible
  intro l hl
  simp only [rows, List.mem_cons, List.mem_map] at hl
  obtain rfl | rfl | rfl | rfl | rfl | ⟨x, hx, rfl⟩ := hl
  · simp [header]
  · exact hkeyed ⟨by simp, by simp⟩ (word_of_isName h.component)
  · exact hkeyed ⟨by simp, by simp⟩ (word_of_isName h.profile)
  · exact hkeyed ⟨by simp, by simp⟩ (word_of_isHex64 h.receipt)
  · exact hkeyed ⟨by simp, by simp⟩ (word_of_isSource h.source)
  · have hdep := h.deps x.1 x.2 (ExtTreeMap.mem_toList_iff_getElem?_eq_some.1 hx)
    exact (line_dep hdep.1 hdep.2).visible

/-- A manifest is read back from its text exactly when its fields are well formed and the text is not too large. -/
theorem parse_render_iff (m : Manifest) :
    parse (render m) = .ok m ↔ m.WellFormed ∧ ((render m).toList.map Char.utf8Size).sum ≤ maxBytes := by
  constructor
  · intro h
    refine ⟨parse_wellFormed h, ?_⟩
    obtain ⟨hsize, -⟩ := Result.check_ok.1 h
    exact Nat.le_of_not_lt (refuseIf_ok.1 hsize)
  · rintro ⟨hwf, hsize⟩
    obtain ⟨d, hd, hfinish⟩ := parseLines_rows hwf
    have hvisible := visible_rows hwf
    have htext := (toList_render m).trans (flatMap_lines (List.cons_ne_nil _ _))
    have hplain : ∀ c : Char, c.toNat < 32 → c ≠ '\n' → c ∉ (render m).toList := by
      intro c hc hne hmem
      rw [toList_render] at hmem
      obtain ⟨l, hl, hmem⟩ := List.mem_flatMap.1 hmem
      rcases List.mem_append.1 hmem with hmem | hmem
      · have := hvisible l hl c hmem
        omega
      · exact hne (List.mem_singleton.1 hmem)
    have hsplit : (render m).toList.dropLast.splitOn '\n' = header.toList :: m.rows := by
      rw [htext, List.dropLast_concat]
      refine List.splitOn_intercalate '\n' (fun l hl hmem => ?_) (List.cons_ne_nil _ _)
      have := hvisible l hl _ hmem
      simp at this
    have hhead : (render m).toList.head? ≠ some '\uFEFF' := by
      rw [toList_render]
      simp [header]
    have hcr : ¬ ('\r' ∈ (render m).toList ∨ '\t' ∈ (render m).toList) := by
      rintro (hmem | hmem)
      · exact hplain '\r' (by decide) (by decide) hmem
      · exact hplain '\t' (by decide) (by decide) hmem
    have hend : ¬ (render m).toList.getLast? ≠ some '\n' := by
      rw [htext, List.getLast?_concat]
      simp
    simp only [parse, refuseIf_false (Nat.not_lt.2 hsize), refuseIf_false hhead, refuseIf_false hcr, refuseIf_false hend,
      hsplit, Result.ok_bind, List.head?_cons, List.tail_cons, refuseIf_false (not_not.2 rfl), hd, hfinish]

end SovereignCore.Closure.Manifest
