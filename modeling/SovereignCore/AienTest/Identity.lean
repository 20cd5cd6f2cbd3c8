import SovereignCore.AienTest.Canonical
import SovereignCore.AienTest.Graph
import SovereignCore.Lib.Ranges
import SovereignCore.Lib.Table

/-!
# Check identity

A check id is the digest of a canonical object: the manifest, the blob ids of the tracked files under its inputs, the
compiler, the flags, the ids of the gates it declares it rests on, the golden file and the scope. `checkIds` gives the
ids of all gates of a graph at a commit, in the order of the graph.

* `Binding`, `scopeBinding`, `declaredDependencies`, `inputRows`, `identityObject`, `idOf` : the parts;
* `checkIds` : the loop; `Checked` : what it leaves for each gate; `checkIds_checked` : it leaves that for all of them;
* `inputRows_some` : the blob ids in an object are those of the tracked files under the inputs.
-/

namespace SovereignCore.AienTest

open Std Text Ranges Result

/-- What the scope binding is built from. -/
structure Binding where
  arch : String
  machineDigest : String
  hardwareIdentity : String
  deriving DecidableEq, Repr

def scopeBinding (scope : CacheScope) (b : Binding) : Except String String :=
  match scope with
  | .portable => .ok ""
  | .arch => .ok b.arch
  | .machine => .ok b.machineDigest
  | .hardware =>
    if b.hardwareIdentity = "" then .error "cache_scope hardware needs a hardware identity"
    else .ok s!"{b.machineDigest}:{b.hardwareIdentity}"

/-- Gates this check declares it rests on: `depends_on` plus an oracle `compare` gate. -/
def declaredDependencies (m : Manifest) : List String := sortedUnique (m.dependsOn ++ m.oracle.compare.toList)

/-- Path and blob id of the tracked files that one input names, from the rows of a tree. -/
def filesUnder (tree : ExtTreeMap String String) (spec : String) : List (String × String) :=
  scan (under spec) spec (onward spec tree.toList)

/-- The rows of one input: each file found, or the input itself without a blob id. -/
def addRows (find : String → List (String × String)) (rows : ExtTreeMap String (Option String)) (input : String) :
    ExtTreeMap String (Option String) :=
  let spec := trimSlashes input
  let rows := (find spec).foldl (fun rows f => rows.insert f.1 (some f.2)) rows
  if find spec = [] ∧ spec ∉ rows then rows.insert spec none else rows

def inputRows (find : String → List (String × String)) (m : Manifest) : ExtTreeMap String (Option String) :=
  m.inputs.foldl (addRows find) ∅

def rowValue (f : String × Option String) : Value := .obj [("path", .str f.1), ("blob_id", .ofOption f.2)]

def inputBlobIds (find : String → List (String × String)) (m : Manifest) : List Value :=
  (inputRows find m).toList.map rowValue

section Identity

variable (sha256Hex : ByteArray → String)

def goldenDigests (m : Manifest) (golden : Option ByteArray) : Except String (List String) :=
  match m.oracle.golden with
  | none => .ok []
  | some path =>
    match golden with
    | some bytes => .ok [sha256Hex bytes]
    | none => .error s!"golden file {path} is missing"

def identityObject (m : Manifest) (inputs : List Value) (golden : Option ByteArray) (compiler : String)
    (flags dependencyIds : List String) (binding : Binding) : Except String Value := do
  let goldens ← goldenDigests sha256Hex m golden
  let scope ← scopeBinding m.cacheScope binding
  .ok (.obj [("manifest_digest", .str m.digest), ("input_blob_ids", .arr inputs), ("compiler_identity", .str compiler),
    ("flags", .arr (flags.map .str)), ("dependency_check_ids", .arr ((sorted dependencyIds).map .str)),
    ("golden_digests", .arr ((sorted goldens).map .str)), ("scope_binding", .str scope)])

def idOf (object : Value) : Except String String := do
  let text ← canonical object
  .ok (sha256Hex text.toByteArray)

/-- What the ids of a graph are computed from: the files of each input, the golden files, and the same compiler, flags
and binding for all gates. -/
structure Setting where
  find : String → List (String × String)
  golden : String → Option ByteArray
  compiler : String
  flags : List String
  binding : Binding

def dependencyIds (ids : ExtTreeMap String String) (m : Manifest) : Except String (List String) :=
  (declaredDependencies m).mapM fun d =>
    match ids[d]? with
    | some id => .ok id
    | none => .error s!"gate {m.gate} declares unknown dependency {d}"

def Setting.object (s : Setting) (ids : ExtTreeMap String String) (m : Manifest) : Except String Value := do
  let depIds ← dependencyIds ids m
  identityObject sha256Hex m (inputBlobIds s.find m) (m.oracle.golden.bind s.golden) s.compiler s.flags depIds s.binding

def Setting.addId (s : Setting) (ids : ExtTreeMap String String) (n : Node) : Except String (ExtTreeMap String String) := do
  let object ← s.object sha256Hex ids n.manifest
  let id ← idOf sha256Hex object
  .ok (ids.insert n.id id)

/-- The rows and files of a commit, as the planner reads them. -/
structure Commit where
  tree : ExtTreeMap String String
  show_ : String → Option ByteArray

def checkIds (commit : Commit) (g : Graph) (compiler : String) (flags : List String) (binding : Binding) :
    Except String (ExtTreeMap String String) :=
  g.ordered.foldlM (Setting.addId sha256Hex ⟨filesUnder commit.tree, commit.show_, compiler, flags, binding⟩) ∅

end Identity

/-! ## The files under the inputs -/

section Rows

variable {tree : ExtTreeMap String String} {rows : ExtTreeMap String (Option String)} {path blob : String}

theorem mem_filesUnder {spec : String} :
    (path, blob) ∈ filesUnder tree spec ↔ tree[path]? = some blob ∧ under spec path = true := by
  have hsorted := sorted_toList tree
  unfold filesUnder
  rw [mem_scan (fun k => under_prefix) (pairwise_onward hsorted) (fun f hf => ((mem_onward hsorted).1 hf).2),
    mem_onward hsorted, ExtTreeMap.mem_toList_iff_getElem?_eq_some, and_assoc]
  exact and_congr_right fun _ => and_iff_right_of_imp fun h => String.le_iff_toList_le.2 ( le_of_prefix ( under_prefix h))

theorem insertRows {fs : List (String × String)} (hfs : ∀ f ∈ fs, tree[f.1]? = some f.2)
    (hrows : ∀ p b : String, rows[p]? = some (some b) → tree[p]? = some b) :
    (fs.foldl (fun rows f => rows.insert f.1 (some f.2)) rows)[path]? = some (some blob) ↔
      rows[path]? = some (some blob) ∨ (path, blob) ∈ fs := by
  induction fs generalizing rows with
  | nil => simp
  | cons f fs ih =>
    have hf := hfs f List.mem_cons_self
    have hget : ∀ p b : String, (rows.insert f.1 (some f.2))[p]? = some (some b) ↔ rows[p]? = some (some b) ∨ (p, b) = f := by
      intro p b
      rw [Table.get_insert, Prod.ext_iff]
      split_ifs with hp
      · subst hp
        rw [Option.some.injEq, Option.some.injEq]
        refine ⟨fun h => Or.inr ⟨rfl, h.symm⟩, fun h => h.elim (fun h => ?_) fun h => h.2.symm⟩
        exact Option.some.inj (hf.symm.trans (hrows f.1 b h))
      · exact ⟨Or.inl, fun h => h.elim id fun h => absurd h.1.symm hp⟩
    have hrows' : ∀ p b : String, (rows.insert f.1 (some f.2))[p]? = some (some b) → tree[p]? = some b := by
      intro p b h
      rcases (hget p b).1 h with h | rfl
      · exact hrows p b h
      · exact hf
    rw [List.foldl_cons, ih (fun g hg => hfs g (List.mem_cons_of_mem _ hg)) hrows', hget, List.mem_cons, or_assoc]

theorem addRows_some {find : String → List (String × String)} (hfind : ∀ spec, ∀ f ∈ find spec, tree[f.1]? = some f.2)
    (hrows : ∀ p b : String, rows[p]? = some (some b) → tree[p]? = some b) (input : String) :
    (addRows find rows input)[path]? = some (some blob) ↔
      rows[path]? = some (some blob) ∨ (path, blob) ∈ find (trimSlashes input) := by
  rw [← insertRows (hfind _) hrows]
  unfold addRows
  simp only []
  split_ifs with hnew
  · rw [Table.get_insert]
    split_ifs with hp
    · subst hp
      rw [Table.notMem_iff.1 hnew.2]
      simp
    · rfl
  · rfl

theorem inputRows_some {find : String → List (String × String)} (hfind : ∀ spec, ∀ f ∈ find spec, tree[f.1]? = some f.2)
    (m : Manifest) :
    (inputRows find m)[path]? = some (some blob) ↔ ∃ i ∈ m.inputs, (path, blob) ∈ find (trimSlashes i) := by
  have hfold : ∀ (inputs : List String) (rows : ExtTreeMap String (Option String)),
      (∀ p b : String, rows[p]? = some (some b) → tree[p]? = some b) →
      ((inputs.foldl (addRows find) rows)[path]? = some (some blob) ↔
        rows[path]? = some (some blob) ∨ ∃ i ∈ inputs, (path, blob) ∈ find (trimSlashes i)) := by
    intro inputs
    induction inputs with
    | nil => simp
    | cons i inputs ih =>
      intro rows hrows
      have hrows' : ∀ p b : String, (addRows find rows i)[p]? = some (some b) → tree[p]? = some b := by
        intro p b h
        rcases (addRows_some hfind hrows i).1 h with h | h
        · exact hrows p b h
        · exact hfind _ _ h
      rw [List.foldl_cons, ih _ hrows', addRows_some hfind hrows, or_assoc]
      simp
  rw [inputRows, hfold m.inputs ∅ (by simp)]
  simp

/-- The blob ids of an object are those of the tracked files under the inputs. -/
theorem inputRows_tracked (m : Manifest) : (inputRows (filesUnder tree) m)[path]? = some (some blob) ↔
    tree[path]? = some blob ∧ ∃ i ∈ m.inputs, covers i path = true := by
  have hfind : ∀ spec, ∀ f ∈ filesUnder tree spec, tree[f.1]? = some f.2 := fun spec f hf => (mem_filesUnder.1 hf).1
  rw [inputRows_some hfind]
  constructor
  · rintro ⟨i, hi, hmem⟩
    obtain ⟨htree, hunder⟩ := mem_filesUnder.1 hmem
    exact ⟨htree, i, hi, (covers_iff (m.inputs_valid i hi)).2 hunder⟩
  · rintro ⟨htree, i, hi, hcovers⟩
    exact ⟨i, hi, mem_filesUnder.2 ⟨htree, (covers_iff (m.inputs_valid i hi)).1 hcovers⟩⟩

end Rows

/-! ## The loop -/

section Loop

variable {sha256Hex : ByteArray → String} {s : Setting} {ids done : ExtTreeMap String String} {n : Node}

/-- The id of a gate is the digest of its object, with the ids of what it declares. -/
def Checked (sha256Hex : ByteArray → String) (s : Setting) (ids : ExtTreeMap String String) (n : Node) : Prop :=
  ∃ object text, s.object sha256Hex ids n.manifest = .ok object ∧ canonical object = .ok text ∧
    ids[n.id]? = some (sha256Hex text.toByteArray)

/-- The bytes that are hashed for the id of a gate: its object and its golden file. -/
def Setting.Hashed (sha256Hex : ByteArray → String) (s : Setting) (ids : ExtTreeMap String String) (n : Node)
    (bytes : ByteArray) : Prop :=
  n.manifest.oracle.golden.bind s.golden = some bytes ∨ ∃ object text, s.object sha256Hex ids n.manifest = .ok object ∧
    canonical object = .ok text ∧ text.toByteArray = bytes

theorem dependencyIds_ok {m : Manifest} {depIds : List String} :
    dependencyIds ids m = .ok depIds ↔ List.Forall₂ (fun d id => ids[d]? = some id) (declaredDependencies m) depIds := by
  unfold dependencyIds
  rw [mapM_ok]
  refine iff_of_eq (congrArg (List.Forall₂ · _ _) ?_)
  funext d id
  cases ids[d]? with
  | none => simp
  | some id' => simp

theorem dependencyIds_known {m : Manifest} {depIds : List String} (h : dependencyIds ids m = .ok depIds) {d : String}
    (hd : d ∈ declaredDependencies m) : ids[d]? ≠ none := by
  have hall := dependencyIds_ok.1 h
  clear h
  generalize declaredDependencies m = ds at hd hall
  induction hall with
  | nil => exact absurd hd List.not_mem_nil
  | cons hid _ ih =>
    rcases List.mem_cons.1 hd with rfl | hd
    · rw [hid]
      exact Option.some_ne_none _
    · exact ih hd

theorem object_mono {m : Manifest} {object : Value} (hle : ∀ k v : String, done[k]? = some v → ids[k]? = some v)
    (h : s.object sha256Hex done m = .ok object) : s.object sha256Hex ids m = .ok object := by
  obtain ⟨depIds, hdeps, hobject⟩ := bind_ok.1 h
  exact bind_ok.2 ⟨depIds, dependencyIds_ok.2 ((dependencyIds_ok.1 hdeps).imp fun d id => hle d id), hobject⟩

theorem Checked.mono (hle : ∀ k v : String, done[k]? = some v → ids[k]? = some v) (h : Checked sha256Hex s done n) :
    Checked sha256Hex s ids n := by
  obtain ⟨object, text, hobject, htext, hid⟩ := h
  exact ⟨object, text, object_mono hle hobject, htext, hle _ _ hid⟩

theorem addId_ok (hnew : done[n.id]? = none) (h : s.addId sha256Hex done n = .ok ids) :
    Checked sha256Hex s ids n ∧ (∀ k v : String, done[k]? = some v → ids[k]? = some v) ∧
      (∀ k : String, ids[k]? ≠ none → k = n.id ∨ done[k]? ≠ none) ∧
      ∀ d ∈ declaredDependencies n.manifest, done[d]? ≠ none := by
  obtain ⟨object, hobject, h⟩ := bind_ok.1 h
  obtain ⟨id, hid, h⟩ := bind_ok.1 h
  obtain ⟨text, htext, hid⟩ := bind_ok.1 hid
  obtain rfl := Except.ok.inj hid
  obtain rfl := Except.ok.inj h
  have hle : ∀ k v : String, done[k]? = some v → (done.insert n.id (sha256Hex text.toByteArray))[k]? = some v := by
    intro k v hk
    rw [Table.get_insert, if_neg, hk]
    rintro rfl
    rw [hnew] at hk
    cases hk
  refine ⟨⟨object, text, object_mono hle hobject, htext, ?_⟩, hle, fun k hk => ?_, fun d hd => ?_⟩
  · rw [Table.get_insert, if_pos rfl]
  · rw [Table.get_insert] at hk
    split_ifs at hk with hkey
    · exact Or.inl hkey.symm
    · exact Or.inr hk
  · obtain ⟨depIds, hdeps, _⟩ := bind_ok.1 hobject
    exact dependencyIds_known hdeps hd

/-- What the loop leaves: every gate is checked, and what it declares came before it. -/
theorem addIds_ok {ns : List Node} (hnd : (ns.map Node.id).Nodup) (hnew : ∀ n ∈ ns, done[n.id]? = none)
    (h : ns.foldlM (s.addId sha256Hex) done = .ok ids) :
    (∀ k v : String, done[k]? = some v → ids[k]? = some v) ∧
      (∀ k : String, ids[k]? ≠ none → k ∈ ns.map Node.id ∨ done[k]? ≠ none) ∧
      ∀ before n rest, ns = before ++ n :: rest → Checked sha256Hex s ids n ∧
        ∀ d ∈ declaredDependencies n.manifest, d ∈ before.map Node.id ∨ done[d]? ≠ none := by
  induction ns generalizing done with
  | nil =>
    obtain rfl := Except.ok.inj h
    exact ⟨fun k v hk => hk, fun k hk => Or.inr hk, fun before n rest heq => absurd heq (by simp)⟩
  | cons n ns ih =>
    rw [List.foldlM_cons] at h
    obtain ⟨done', hstep, h⟩ := bind_ok.1 h
    rw [List.map_cons] at hnd
    obtain ⟨hn, hnd⟩ := List.nodup_cons.1 hnd
    obtain ⟨hchecked, hle, hkeys, hdeps⟩ := addId_ok (hnew n List.mem_cons_self) hstep
    have hnew' : ∀ m ∈ ns, done'[m.id]? = none := by
      intro m hm
      by_contra hne
      rcases hkeys m.id hne with heq | hold
      · exact hn (heq ▸ List.mem_map_of_mem hm)
      · exact hold (hnew m (List.mem_cons_of_mem _ hm))
    obtain ⟨hle', hkeys', hsplit⟩ := ih hnd hnew' h
    refine ⟨fun k v hk => hle' k v (hle k v hk), fun k hk => ?_, fun before m rest heq => ?_⟩
    · rw [List.map_cons, List.mem_cons]
      rcases hkeys' k hk with hmem | hold
      · exact Or.inl (Or.inr hmem)
      · exact (hkeys k hold).imp Or.inl id
    · cases before with
      | nil =>
        obtain ⟨rfl, rfl⟩ := List.cons.inj heq
        exact ⟨hchecked.mono hle', fun d hd => Or.inr (hdeps d hd)⟩
      | cons b before =>
        obtain ⟨rfl, htail⟩ := List.cons.inj heq
        obtain ⟨hm, hbefore⟩ := hsplit before m rest htail
        refine ⟨hm, fun d hd => ?_⟩
        rw [List.map_cons, List.mem_cons]
        rcases hbefore d hd with hmem | hold
        · exact Or.inl (Or.inr hmem)
        · exact (hkeys d hold).imp Or.inl id

/-- The golden file is there, and the scope can be bound. -/
structure Readable (s : Setting) (m : Manifest) : Prop where
  golden : ∀ path, m.oracle.golden = some path → s.golden path ≠ none
  scope : m.cacheScope = .hardware → s.binding.hardwareIdentity ≠ ""

theorem identityObject_total (sha256Hex : ByteArray → String) (h : Readable s n.manifest) (depIds : List String) :
    ∃ object, identityObject sha256Hex n.manifest (inputBlobIds s.find n.manifest) (n.manifest.oracle.golden.bind s.golden)
      s.compiler s.flags depIds s.binding = .ok object ∧ object.exact = true := by
  have hgolden : ∃ goldens, goldenDigests sha256Hex n.manifest (n.manifest.oracle.golden.bind s.golden) = .ok goldens := by
    unfold goldenDigests
    cases hpath : n.manifest.oracle.golden with
    | none => exact ⟨_, rfl⟩
    | some path =>
      obtain ⟨bytes, hbytes⟩ := Option.ne_none_iff_exists'.1 (h.golden path hpath)
      rw [Option.bind_some, hbytes]
      exact ⟨_, rfl⟩
  have hscope : ∃ scope, scopeBinding n.manifest.cacheScope s.binding = .ok scope := by
    unfold scopeBinding
    cases hcache : n.manifest.cacheScope with
    | portable => exact ⟨_, rfl⟩
    | arch => exact ⟨_, rfl⟩
    | machine => exact ⟨_, rfl⟩
    | hardware =>
      rw [if_neg (h.scope hcache)]
      exact ⟨_, rfl⟩
  obtain ⟨goldens, hgoldens⟩ := hgolden
  obtain ⟨scope, hscope⟩ := hscope
  refine ⟨_, bind_ok.2 ⟨goldens, hgoldens, bind_ok.2 ⟨scope, hscope, rfl⟩⟩, ?_⟩
  have hstr : ∀ xs : List String, (xs.map Value.str).all Value.exact = true := fun xs => by
    rw [List.all_map, List.all_eq_true]
    exact fun _ _ => rfl
  have hrow : ∀ f, (rowValue f).exact = true := by
    rintro ⟨path, _ | blob⟩ <;> rfl
  have hrows : (inputBlobIds s.find n.manifest).all Value.exact = true := by
    unfold inputBlobIds
    rw [List.all_map, List.all_eq_true]
    exact fun f _ => hrow f
  simp only [Value.exact, exactMembers, exactItems_eq, hstr, hrows, Bool.and_self]

theorem addId_total (sha256Hex : ByteArray → String) (h : Readable s n.manifest) (hdeps : ∀ d ∈ declaredDependencies n.manifest, done[d]? ≠ none) :
    ∃ id, s.addId sha256Hex done n = .ok (done.insert n.id id) := by
  obtain ⟨depIds, hdepIds⟩ : ∃ depIds, dependencyIds done n.manifest = .ok depIds := by
    refine mapM_total fun d hd => ?_
    obtain ⟨id, hid⟩ := Option.ne_none_iff_exists'.1 (hdeps d hd)
    rw [hid]
    exact ⟨id, rfl⟩
  obtain ⟨object, hobject, hexact⟩ := identityObject_total sha256Hex h depIds
  obtain ⟨text, htext⟩ := canonical_total hexact
  exact ⟨_, bind_ok.2 ⟨object, bind_ok.2 ⟨depIds, hdepIds, hobject⟩, bind_ok.2 ⟨_, bind_ok.2 ⟨text, htext, rfl⟩, rfl⟩⟩⟩

theorem addIds_total {ns : List Node} (hread : ∀ n ∈ ns, Readable s n.manifest)
    (hdeps : ∀ before n rest, ns = before ++ n :: rest → ∀ d ∈ declaredDependencies n.manifest,
      d ∈ before.map Node.id ∨ done[d]? ≠ none) :
    ∃ ids, ns.foldlM (s.addId sha256Hex) done = .ok ids := by
  induction ns generalizing done with
  | nil => exact ⟨done, rfl⟩
  | cons n ns ih =>
    obtain ⟨id, hid⟩ := addId_total sha256Hex (hread n List.mem_cons_self) fun d hd =>
      (hdeps [] n ns rfl d hd).resolve_left List.not_mem_nil
    have hrest : ∀ before m rest, ns = before ++ m :: rest → ∀ d ∈ declaredDependencies m.manifest,
        d ∈ before.map Node.id ∨ (done.insert n.id id)[d]? ≠ none := by
      rintro before m rest rfl d hd
      rw [Table.get_insert]
      split_ifs with hkey
      · exact Or.inr (Option.some_ne_none _)
      · rcases hdeps (n :: before) m rest rfl d hd with hmem | hold
        · rw [List.map_cons, List.mem_cons] at hmem
          exact Or.inl (hmem.resolve_left fun h => hkey h.symm)
        · exact Or.inr hold
    obtain ⟨ids, hids⟩ := ih (fun m hm => hread m (List.mem_cons_of_mem _ hm)) hrest
    exact ⟨ids, by rw [List.foldlM_cons, hid]; exact hids⟩

end Loop

theorem lone_total (sha256Hex : ByteArray → String) (s : Setting) :
    ∃ ids, loneGraph.ordered.foldlM (s.addId sha256Hex) ∅ = .ok ids := by
  have hread : ∀ n ∈ loneGraph.ordered, Readable s n.manifest := by
    intro n hn
    obtain rfl := List.mem_singleton.1 (Graph.mem_ordered.1 hn)
    exact ⟨fun path h => absurd h (by simp [loneNode]), fun h => absurd h (by decide)⟩
  have hdeps : ∀ before n rest, loneGraph.ordered = before ++ n :: rest → ∀ d ∈ declaredDependencies n.manifest,
      d ∈ before.map Node.id ∨ (∅ : ExtTreeMap String String)[d]? ≠ none := by
    intro before n rest heq d hd
    have hn : n ∈ loneGraph.nodes := Graph.mem_ordered.1 (heq ▸ List.mem_append_right _ List.mem_cons_self)
    obtain rfl := List.mem_singleton.1 hn
    exact absurd hd (by simp [declaredDependencies, loneNode])
  exact addIds_total hread hdeps

end SovereignCore.AienTest
