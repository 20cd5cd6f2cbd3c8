import SovereignCore.AienTest.Select

/-!
# Completeness of the selection

A changed path touches the gates that name it: by an input above it, as manifest or golden file, or by the pattern that
a manifest implies. The planner looks for implied inputs among the files of the head only.

* `Implied` : the documented pattern; `Touches` : the documented sense of it all;
* `Complete` : every gate touched is selected with all that rests on it, and what touches no gate is reported;
* `compute_complete_iff` : a plan is complete when the planner watches the changed paths as documented.
-/

namespace SovereignCore.AienTest

open Std Relation Inputs

/-- `tests/<dir>/<name>.gate` implies `src/<dir>/<name>.*` and `tests/<dir>/<name>_test.*`. -/
def Implied (rel path : String) : Prop :=
  ∃ dir name ext : List Char, (dir = [] ∨ dir.getLast? = some '/') ∧ '/' ∉ name ∧ '/' ∉ ext ∧
    rel.toList = "tests/".toList ++ dir ++ name ++ ".gate".toList ∧
    (path.toList = "src/".toList ++ dir ++ name ++ '.' :: ext ∨
      path.toList = "tests/".toList ++ dir ++ name ++ "_test.".toList ++ ext)

def Touches (n : Node) (path : String) : Prop :=
  (∃ i ∈ n.manifest.inputs, covers i path = true) ∨ path = n.path ∨ n.manifest.oracle.golden = some path ∨
    Implied n.path path

structure Complete (inp : Inputs) (plan : Plan) : Prop where
  selected : ∀ p ∈ inp.changed, ∀ n ∈ inp.graph.nodes, Touches n p →
    ∀ h, ReflTransGen inp.graph.Edge h n.id → h ∈ plan.entries.map Entry.gate
  unmapped : ∀ p ∈ inp.changed, (∀ n ∈ inp.graph.nodes, ¬ Touches n p) → inp.exempt p = false → p ∈ plan.unmapped

/-- The planner watches the changed paths as documented, or has other reasons to select what they touch. -/
structure Agrees (inp : Inputs) : Prop where
  implied : ∀ p ∈ inp.changed, ∀ n ∈ inp.graph.nodes, Implied n.path p →
    inp.watches n p = true ∨ ∀ h, ReflTransGen inp.graph.Edge h n.id → inp.Reached h
  nothingElse : ∀ p ∈ inp.changed, inp.exempt p = false → ∀ n ∈ inp.graph.nodes, inp.watches n p = true →
    ∃ n' ∈ inp.graph.nodes, Touches n' p

variable {inp : Inputs} {n : Node} {p : String}

theorem watches_of_mem (input : String) (h : input ∈ watched n inp.commit.tree) (hp : covers input p = true) :
    inp.watches n p = true := List.any_eq_true.2 ⟨input, h, hp⟩

theorem Touches.watches (inp : Inputs) (h : Touches n p) : Implied n.path p ∨ inp.watches n p = true := by
  rcases h with ⟨i, hi, hcovers⟩ | rfl | hgolden | himplied
  · right
    refine watches_of_mem (trimSlashes i) ?_ (by rwa [covers_trimSlashes])
    unfold watched
    simp only [Text.mem_sortedUnique, List.mem_append]
    exact Or.inl (Or.inl (Or.inl (List.mem_map_of_mem hi)))
  · right
    refine watches_of_mem n.path ?_ (covers_self _)
    unfold watched
    simp
  · right
    refine watches_of_mem (trimSlashes p) ?_ (by rw [covers_trimSlashes, covers_self])
    unfold watched
    simp [hgolden]
  · exact Or.inl himplied

theorem reached_of_watches (hp : p ∈ inp.changed) (hn : n ∈ inp.graph.nodes) (hw : inp.watches n p = true) {h : String}
    (hrests : ReflTransGen inp.graph.Edge h n.id) : inp.Reached h :=
  ⟨n.id, h, Or.inr ⟨n, hn, rfl, p, List.mem_append_left _ hp, hw⟩, List.mem_map_of_mem hn, hrests, .refl⟩

theorem compute_ok {sha256Hex : ByteArray → String} {plan : Plan} (h : compute sha256Hex inp = .ok plan) :
    ∃ ids, checkIds sha256Hex inp.commit inp.graph inp.compiler inp.flags inp.bound = .ok ids ∧
      plan.entries = inp.entries ids ∧ plan.unmapped = inp.unmapped := by
  obtain ⟨ids, hids, h⟩ := Result.bind_ok.1 h
  obtain ⟨digest, _, h⟩ := Result.bind_ok.1 h
  obtain rfl := Except.ok.inj h
  exact ⟨ids, hids, rfl, rfl⟩

/-- Exactly when the selection is complete. -/
theorem compute_complete_iff (sha256Hex : ByteArray → String) (inp : Inputs) (plan : Plan)
    (h : compute sha256Hex inp = .ok plan) : Complete inp plan ↔ Agrees inp := by
  obtain ⟨ids, -, hentries, hunmapped⟩ := compute_ok h
  constructor
  · intro hc
    refine ⟨fun p hp n hn himplied => Or.inr fun g hg => ?_, fun p hp hexempt n hn hw => ?_⟩
    · have hmem := hc.selected p hp n hn (Or.inr (Or.inr (Or.inr himplied))) g hg
      rw [hentries] at hmem
      exact mem_entries.1 hmem
    · by_contra hnone
      push Not at hnone
      have hmem := hc.unmapped p hp hnone hexempt
      rw [hunmapped] at hmem
      rw [(mem_unmapped.1 hmem).2.2 n hn] at hw
      cases hw
  · intro ha
    refine ⟨fun p hp n hn ht g hg => ?_, fun p hp hnone hexempt => ?_⟩
    · rw [hentries]
      refine mem_entries.2 ?_
      rcases ht.watches inp with himplied | hw
      · rcases ha.implied p hp n hn himplied with hw | hreached
        · exact reached_of_watches hp hn hw hg
        · exact hreached g hg
      · exact reached_of_watches hp hn hw hg
    · rw [hunmapped]
      refine mem_unmapped.2 ⟨hp, hexempt, fun n hn => Bool.eq_false_iff.2 fun hw => ?_⟩
      obtain ⟨n', hn', ht⟩ := ha.nothingElse p hp hexempt n hn hw
      exact hnone n' hn' ht

/-- A change to the one gate `tests/a.gate` of a head with no other file. -/
def loneInputs (changed : List String) : Inputs where
  base := "b0"
  head := "b1"
  changed := changed
  commit := ⟨∅, fun _ => none⟩
  graph := loneGraph
  baseIds := ["a"]
  crumb := []
  pins := []
  always := []
  okPatterns := []
  operator := false
  compiler := "rustc"
  flags := []
  binding := ⟨"aarch64", "", ""⟩
  cached := []

/-- SHA-256 of the three texts that are hashed in a plan of `loneGraph`, told apart by their sizes. -/
def loneDigest (bytes : ByteArray) : String :=
  if bytes.size = 2 then "4f53cda18c2baa0c0354bb5f9a3ecbe5ed12ab4d8e11ba873c2f11161202b945"
  else if bytes.size = 108 then "c70677d0f020f38fdde8c3414a0a306ef4796612d34f812f28cfb1b4f5a422f8"
  else "3607e855d767251a14aa3561f6ea295d77a28a41501018367e924e712e109d9e"

theorem compute_lone (sha256Hex : ByteArray → String) (changed : List String) :
    ∃ plan, compute sha256Hex (loneInputs changed) = .ok plan := by
  obtain ⟨ids, hids⟩ := lone_total sha256Hex ⟨filesUnder ∅, fun _ => none, "rustc", [], (loneInputs changed).bound⟩
  obtain ⟨digest, hdigest⟩ := digestOf_total sha256Hex ((loneInputs changed).entries ids)
  exact ⟨_, Result.bind_ok.2 ⟨ids, hids, Result.bind_ok.2 ⟨digest, hdigest, rfl⟩⟩⟩

theorem lone_watches {changed : List String} (hn : n ∈ loneGraph.nodes) :
    (loneInputs changed).watches n p = covers "tests/a.gate" p := by
  obtain rfl : n = loneNode := List.mem_singleton.1 hn
  have himplied : ∀ rel, impliedInputs rel ∅ = [] := by
    intro rel
    refine List.flatMap_eq_nil_iff.2 fun place _ => List.filter_eq_nil_iff.2 fun path hpath => ?_
    exact absurd (ExtTreeMap.mem_keys.1 hpath) ExtTreeMap.not_mem_empty
  have hwatched : watched loneNode ∅ = ["tests/a.gate"] := by
    unfold watched
    rw [himplied]
    rfl
  have hany : (loneInputs changed).watches loneNode p = (watched loneNode ∅).any fun input => covers input p := rfl
  rw [hany, hwatched, List.any_cons, List.any_nil, Bool.or_false]

/-- The only implied input is deleted: its gate is not in the plan. -/
theorem deleted_not_selected : ∃ plan, compute loneDigest (loneInputs ["src/a.rs"]) = .ok plan ∧
    ¬ Complete (loneInputs ["src/a.rs"]) plan := by
  obtain ⟨plan, hplan⟩ := compute_lone loneDigest ["src/a.rs"]
  obtain ⟨ids, -, hentries, -⟩ := compute_ok hplan
  refine ⟨plan, hplan, fun hc => ?_⟩
  have htouches : Touches loneNode "src/a.rs" :=
    Or.inr (Or.inr (Or.inr ⟨[], ['a'], ['r', 's'], by decide, by decide, by decide, by decide, by decide⟩))
  have hmem := hc.selected "src/a.rs" List.mem_cons_self _ List.mem_cons_self htouches _ .refl
  rw [hentries] at hmem
  obtain ⟨s, -, halways | ⟨n, hn, -, p, hp, hw⟩, -⟩ := mem_entries.1 hmem
  · exact absurd halways List.not_mem_nil
  · obtain rfl : p = "src/a.rs" := by simpa [loneInputs] using hp
    rw [lone_watches hn] at hw
    exact absurd hw (by decide)

/-- The manifest itself is changed. -/
theorem manifest_selected : ∃ plan, compute loneDigest (loneInputs ["tests/a.gate"]) = .ok plan ∧
    Complete (loneInputs ["tests/a.gate"]) plan := by
  obtain ⟨plan, hplan⟩ := compute_lone loneDigest ["tests/a.gate"]
  refine ⟨plan, hplan, (compute_complete_iff loneDigest _ plan hplan).2 ⟨fun p hp n hn _ => Or.inl ?_, fun p hp hexempt => ?_⟩⟩
  · obtain rfl := List.mem_singleton.1 hp
    rw [lone_watches hn]
    exact covers_self _
  · obtain rfl := List.mem_singleton.1 hp
    exact absurd hexempt (by decide)

end SovereignCore.AienTest
