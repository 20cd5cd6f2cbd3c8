import SovereignCore.Harness.State

/-!
# The memory of applied event ids

An id is remembered in one place: in the window, or in the bucket of one task and generation. An event that is recorded
goes to the end of its place; the window loses its oldest ids, and a task that moved on loses its older buckets.

* `bucket` : the ids of one task and generation;
* `mem_record`, `mem_prune` : which ids are remembered afterwards;
* `Sound` : the places are disjoint and together are what is remembered;
* `size_le_places` : how much is remembered, from the sizes of the places.
-/

namespace SovereignCore.Harness

open Std

namespace Seen

/-! ## The places -/

def bucket (s : Seen) (task : String) (g : UInt64) : List String := (s.byTask[task]?.getD ∅)[g]?.getD []

variable {s : Seen} {id x digest task : String} {g : UInt64} {kind : EventKind} {w : Nat}
variable {current : String → Option UInt64}

theorem mem_forget {ids : ExtTreeMap String String} {old : List String} : x ∈ forget ids old ↔ x ∈ ids ∧ x ∉ old := by
  unfold forget
  induction old generalizing ids with
  | nil => simp
  | cons o old ih =>
    rw [List.foldl_cons, ih, ExtTreeMap.mem_erase, List.mem_cons, not_or]
    simp only [ne_eq, LawfulEqCmp.compare_eq_iff_eq]
    constructor
    · rintro ⟨⟨ho, hm⟩, hn⟩
      exact ⟨hm, Ne.symm ho, hn⟩
    · rintro ⟨hm, ho, hn⟩
      exact ⟨⟨Ne.symm ho, hm⟩, hn⟩

theorem bucket_record : (s.record id digest kind w).bucket task g =
    if generationScope kind = some (task, g) then s.bucket task g ++ [id] else s.bucket task g := by
  unfold record bucket
  cases hscope : generationScope kind with
  | none => simp
  | some tg =>
    obtain ⟨t, g'⟩ := tg
    simp only [Option.some.injEq, Prod.mk.injEq]
    rw [Table.get_insert]
    by_cases ht : t = task
    · subst ht
      rw [if_pos rfl, Option.getD_some, Table.get_insert]
      by_cases hg : g' = g
      · subst hg
        simp
      · rw [if_neg hg, if_neg fun h => hg h.2]
    · rw [if_neg ht, if_neg fun h => ht h.1]

theorem bucket_prune : (s.prune current).bucket task g =
    if (current task).any (g < ·) then [] else s.bucket task g := by
  unfold prune bucket
  simp only
  rw [ExtTreeMap.getElem?_filter', ExtTreeMap.getElem?_map]
  cases hgens : s.byTask[task]? with
  | none => simp
  | some gens =>
    simp only [Option.map_some, Option.getD_some]
    -- an empty row of buckets is removed, which no lookup sees
    have hrow : ∀ row : ExtTreeMap UInt64 (List String),
        ((Option.filter (fun row => decide ¬ row.isEmpty = true) (some row)).getD ∅)[g]? = row[g]? := by
      intro row
      by_cases hrow : row.isEmpty = true
      · rw [Option.filter_some_neg (by simpa using hrow)]
        rw [ExtTreeMap.isEmpty_iff] at hrow
        rw [hrow]
        rfl
      · rw [Option.filter_some_pos (by simpa using hrow)]
        rfl
    cases hcur : current task with
    | none =>
      simp only [Option.any_none]
      rw [hrow]
      rfl
    | some now =>
      simp only [Option.any_some]
      rw [hrow, ExtTreeMap.getElem?_filter']
      by_cases hlt : g < now
      · cases hg : gens[g]? with
        | none => simp
        | some ids => simp [hlt]
      · cases hg : gens[g]? with
        | none => simp
        | some ids =>
          rw [Option.filter_some_pos (by simpa using hlt), if_neg (by simpa using hlt)]

/-! ## What is remembered -/

theorem mem_old {gens : ExtTreeMap UInt64 (List String)} {now : UInt64} :
    x ∈ (gens.filter fun g _ => g < now).toList.flatMap (·.2) ↔ ∃ g, g < now ∧ x ∈ gens[g]?.getD [] := by
  rw [List.mem_flatMap]
  constructor
  · rintro ⟨⟨g, ids⟩, he, hx⟩
    rw [ExtTreeMap.mem_toList_iff_getElem?_eq_some, ExtTreeMap.getElem?_filter', Option.filter_eq_some_iff] at he
    exact ⟨g, by simpa using he.2, by rw [he.1]; exact hx⟩
  · rintro ⟨g, hlt, hx⟩
    cases hg : gens[g]? with
    | none => simp [hg] at hx
    | some ids =>
      rw [hg] at hx
      refine ⟨(g, ids), ?_, hx⟩
      rw [ExtTreeMap.mem_toList_iff_getElem?_eq_some, ExtTreeMap.getElem?_filter', hg]
      simpa using hlt

/-- Pruning forgets what stands in a bucket below the current generation of its task, and nothing else. -/
theorem mem_foldl_forget (l : List (String × ExtTreeMap UInt64 (List String))) (ids : ExtTreeMap String String) :
    x ∈ l.foldl (fun ids e => match current e.1 with
      | none => ids
      | some now => forget ids ((e.2.filter fun g _ => g < now).toList.flatMap (·.2))) ids ↔
    x ∈ ids ∧ ∀ e ∈ l, ∀ now g, current e.1 = some now → g < now → x ∉ e.2[g]?.getD [] := by
  induction l generalizing ids with
  | nil => simp
  | cons e l ih =>
    rw [List.foldl_cons, ih]
    cases hcur : current e.1 with
    | none => simp [hcur]
    | some now =>
      simp only [mem_forget, mem_old, not_exists, not_and, List.forall_mem_cons, hcur, Option.some.injEq]
      constructor
      · rintro ⟨⟨hm, hold⟩, hrest⟩
        exact ⟨hm, fun now' g he hlt => hold g (he ▸ hlt), hrest⟩
      · rintro ⟨hm, hold, hrest⟩
        exact ⟨⟨hm, fun g hlt => hold now g rfl hlt⟩, hrest⟩

theorem mem_prune : x ∈ (s.prune current).ids ↔
    x ∈ s.ids ∧ ∀ task g, (current task).any (g < ·) = true → x ∉ s.bucket task g := by
  refine (mem_foldl_forget s.byTask.toList s.ids).trans ?_
  refine and_congr_right fun _ => ⟨fun h task g hold hx => ?_, fun h e he now g hcur hlt hx => ?_⟩
  · obtain ⟨now, hcur, hlt⟩ := Option.any_eq_true _ _ |>.1 hold
    unfold bucket at hx
    cases hgens : s.byTask[task]? with
    | none => simp [hgens] at hx
    | some gens =>
      rw [hgens] at hx
      exact h (task, gens) (ExtTreeMap.mem_toList_iff_getElem?_eq_some.2 hgens) now g hcur (by simpa using hlt) hx
  · refine h e.1 g (by simpa [hcur] using hlt) ?_
    unfold bucket
    rw [ExtTreeMap.mem_toList_iff_getElem?_eq_some.1 he]
    exact hx

theorem record_free (s : Seen) (id digest : String) (w : Nat) (h : generationScope kind = none) :
    ∃ old, s.window ++ [id] = old ++ (s.record id digest kind w).window ∧
      (∀ x, x ∈ (s.record id digest kind w).ids ↔ (x = id ∨ x ∈ s.ids) ∧ x ∉ old) ∧
      (s.record id digest kind w).window.length ≤ w := by
  unfold record
  rw [h]
  refine ⟨_, (List.take_append_drop _ _).symm, fun x => ?_, ?_⟩
  · rw [mem_forget, ExtTreeMap.mem_insert, LawfulEqCmp.compare_eq_iff_eq, eq_comm]
  · simp only [List.length_drop, List.length_append, List.length_singleton]
    omega

theorem mem_record_bound {tg : String × UInt64} (h : generationScope kind = some tg) :
    x ∈ (s.record id digest kind w).ids ↔ x = id ∨ x ∈ s.ids := by
  unfold record
  rw [h]
  show x ∈ s.ids.insert id digest ↔ _
  rw [ExtTreeMap.mem_insert, LawfulEqCmp.compare_eq_iff_eq, eq_comm]

theorem window_record_bound {tg : String × UInt64} (h : generationScope kind = some tg) :
    (s.record id digest kind w).window = s.window := by
  unfold record
  rw [h]

theorem length_window_record (h : s.window.length ≤ w) : (s.record id digest kind w).window.length ≤ w := by
  cases hscope : generationScope kind with
  | none =>
    obtain ⟨-, -, -, hlen⟩ := record_free s id digest w hscope
    exact hlen
  | some tg => rw [window_record_bound hscope]; exact h

/-! ## Soundness -/

/-- Every remembered id is in one place, and every id in a place is remembered. -/
structure Sound (s : Seen) : Prop where
  known : ∀ x, x ∈ s.ids ↔ x ∈ s.window ∨ ∃ task g, x ∈ s.bucket task g
  nodup : s.window.Nodup
  apart : ∀ x ∈ s.window, ∀ task g, x ∉ s.bucket task g
  single : ∀ x task task' g g', x ∈ s.bucket task g → x ∈ s.bucket task' g' → task = task' ∧ g = g'

theorem sound_empty : Sound {} where
  known x := by simp [bucket]
  nodup := List.nodup_nil
  apart x hx := by simp at hx
  single x task task' g g' hx := by simp [bucket] at hx

theorem Sound.fresh (h : s.Sound) (hid : id ∉ s.ids) : id ∉ s.window ∧ ∀ task g, id ∉ s.bucket task g := by
  rw [h.known, not_or] at hid
  exact ⟨hid.1, fun task g hx => hid.2 ⟨task, g, hx⟩⟩

theorem Sound.record (h : s.Sound) (hid : id ∉ s.ids) : (s.record id digest kind w).Sound := by
  obtain ⟨hnw, hnb⟩ := h.fresh hid
  cases hscope : generationScope kind with
  | none =>
    obtain ⟨old, hsplit, hids, -⟩ := record_free s id digest w hscope
    have hbucket : ∀ task g, (s.record id digest kind w).bucket task g = s.bucket task g := fun task g => by
      rw [bucket_record, hscope, if_neg nofun]
    have hnd : (s.window ++ [id]).Nodup := List.nodup_append.2 ⟨h.nodup, by simp, fun a ha b hb hab => by
      rw [List.mem_singleton] at hb
      exact hnw (hb ▸ hab ▸ ha)⟩
    have hall : ∀ x, x ∈ s.window ∨ x = id ↔ x ∈ old ∨ x ∈ (s.record id digest kind w).window := fun x => by
      rw [← List.mem_append, ← hsplit, List.mem_append, List.mem_singleton]
    rw [hsplit, List.nodup_append] at hnd
    -- what is in the window or just left it is in no bucket
    have hfree : ∀ x, x ∈ s.window ∨ x = id → ∀ task g, x ∉ s.bucket task g := by
      rintro x (hx | rfl)
      · exact h.apart x hx
      · exact hnb
    refine ⟨fun x => ?_, hnd.2.1, fun x hx task g => ?_, ?_⟩
    · simp only [hids, hbucket]
      constructor
      · rintro ⟨hx, hold⟩
        rcases hx with rfl | hx
        · exact .inl (((hall x).1 (.inr rfl)).resolve_left hold)
        · rcases (h.known x).1 hx with hx | hx
          · exact .inl (((hall x).1 (.inl hx)).resolve_left hold)
          · exact .inr hx
      · rintro (hx | ⟨task, g, hx⟩)
        · refine ⟨?_, fun hold => hnd.2.2 x hold x hx rfl⟩
          rcases (hall x).2 (.inr hx) with hx | hx
          · exact .inr ((h.known x).2 (.inl hx))
          · exact .inl hx
        · exact ⟨.inr ((h.known x).2 (.inr ⟨task, g, hx⟩)), fun hold => hfree x ((hall x).2 (.inl hold)) task g hx⟩
    · rw [hbucket]
      exact hfree x ((hall x).2 (.inr hx)) task g
    · simpa only [hbucket] using h.single
  | some tg =>
    obtain ⟨t, g₀⟩ := tg
    have hmem : ∀ x task g, x ∈ (s.record id digest kind w).bucket task g ↔
        x ∈ s.bucket task g ∨ (x = id ∧ t = task ∧ g₀ = g) := by
      intro x task g
      rw [bucket_record, hscope]
      by_cases htg : t = task ∧ g₀ = g
      · rw [if_pos (by rw [htg.1, htg.2])]
        simp [htg]
      · rw [if_neg fun he => htg (Prod.mk.inj (Option.some.inj he))]
        simp [htg]
    refine ⟨fun x => ?_, ?_, fun x hx task g hb => ?_, fun x task task' g g' hb hb' => ?_⟩
    · rw [mem_record_bound hscope, window_record_bound hscope, h.known]
      simp only [hmem]
      constructor
      · rintro (rfl | hx | ⟨task, g, hx⟩)
        · exact .inr ⟨t, g₀, .inr ⟨rfl, rfl, rfl⟩⟩
        · exact .inl hx
        · exact .inr ⟨task, g, .inl hx⟩
      · rintro (hx | ⟨task, g, hx | ⟨rfl, -⟩⟩)
        · exact .inr (.inl hx)
        · exact .inr (.inr ⟨task, g, hx⟩)
        · exact .inl rfl
    · rw [window_record_bound hscope]
      exact h.nodup
    · rw [window_record_bound hscope] at hx
      rcases (hmem x task g).1 hb with hb | ⟨rfl, -⟩
      · exact h.apart x hx task g hb
      · exact hnw hx
    · rcases (hmem x task g).1 hb with hold | ⟨rfl, h1, h2⟩
      · rcases (hmem x task' g').1 hb' with hold' | ⟨rfl, -⟩
        · exact h.single x task task' g g' hold hold'
        · exact absurd hold (hnb task g)
      · rcases (hmem x task' g').1 hb' with hold' | ⟨-, h1', h2'⟩
        · exact absurd hold' (hnb task' g')
        · exact ⟨h1.symm.trans h1', h2.symm.trans h2'⟩

theorem mem_bucket_prune : x ∈ (s.prune current).bucket task g ↔
    ¬ (current task).any (g < ·) = true ∧ x ∈ s.bucket task g := by
  rw [bucket_prune]
  by_cases h : (current task).any (g < ·) = true
  · simp [h]
  · simp [h]

theorem Sound.prune (h : s.Sound) : (s.prune current).Sound where
  known x := by
    rw [mem_prune, h.known]
    show _ ↔ x ∈ s.window ∨ _
    simp only [mem_bucket_prune]
    constructor
    · rintro ⟨hx | ⟨task, g, hx⟩, hold⟩
      · exact .inl hx
      · exact .inr ⟨task, g, fun hlt => hold task g hlt hx, hx⟩
    · rintro (hx | ⟨task, g, hnot, hx⟩)
      · exact ⟨.inl hx, fun task g _ => h.apart x hx task g⟩
      · refine ⟨.inr ⟨task, g, hx⟩, fun task' g' hlt hx' => ?_⟩
        obtain ⟨rfl, rfl⟩ := h.single x task task' g g' hx hx'
        exact hnot hlt
  nodup := h.nodup
  apart x hx task g hb := h.apart x hx task g (mem_bucket_prune.1 hb).2
  single x task task' g g' hb hb' := h.single x task task' g g' (mem_bucket_prune.1 hb).2 (mem_bucket_prune.1 hb').2

end Seen

end SovereignCore.Harness
