import SovereignCore.AienTest.Identity
import Mathlib.Data.List.Forall2

/-!
# What a check id binds

Two gates with one check id rest on the same things, when the hash does not collide on what the two runs hashed.

* `IdRun` : what the ids of a graph are computed from; `Hashed` : the bytes one run gives to the hash;
* `Alike` : the same manifest, files, golden contents, compiler, flags and scope;
* `Same` : alike, and so are, gate by gate, all the gates they declare;
* `identityObject_injective` : what one object says about the parts of another;
* `checkIds_bind` : gates with the same id are the same.
-/

namespace SovereignCore.AienTest

open Std Text Result

structure IdRun where
  commit : Commit
  graph : Graph
  compiler : String
  flags : List String
  binding : Binding

namespace IdRun

variable (sha256Hex : ByteArray → String) (r : IdRun)

def setting : Setting := ⟨filesUnder r.commit.tree, r.commit.show_, r.compiler, r.flags, r.binding⟩

def ids : Except String (ExtTreeMap String String) := checkIds sha256Hex r.commit r.graph r.compiler r.flags r.binding

def golden (n : Node) : Option ByteArray := n.manifest.oracle.golden.bind r.commit.show_

def Tracked (n : Node) (path blob : String) : Prop :=
  r.commit.tree[path]? = some blob ∧ ∃ i ∈ n.manifest.inputs, covers i path = true

def Hashed (ids : ExtTreeMap String String) (bytes : ByteArray) : Prop :=
  ∃ n ∈ r.graph.nodes, r.setting.Hashed sha256Hex ids n bytes

end IdRun

structure Alike (r r' : IdRun) (n n' : Node) : Prop where
  digest : n.manifest.digest = n'.manifest.digest
  files : ∀ path blob, r.Tracked n path blob ↔ r'.Tracked n' path blob
  golden : r.golden n = r'.golden n'
  compiler : r.compiler = r'.compiler
  flags : r.flags = r'.flags
  scope : scopeBinding n.manifest.cacheScope r.binding = scopeBinding n'.manifest.cacheScope r'.binding

/-- Alike, with the declared dependencies of the two paired off, each pair the same. -/
inductive Same (r r' : IdRun) : String → String → Prop
  | mk {n n' : Node} (hn : n ∈ r.graph.nodes) (hn' : n' ∈ r'.graph.nodes) (alike : Alike r r' n n')
    (pairs : List (String × String)) (left : pairs.map Prod.fst = declaredDependencies n.manifest)
    (right : (pairs.map Prod.snd).Perm (declaredDependencies n'.manifest)) (below : ∀ p ∈ pairs, Same r r' p.1 p.2) :
    Same r r' n.id n'.id

/-! ## Objects -/

theorem map_str_injective {xs ys : List String} (h : (Value.arr (xs.map .str)).normal = (Value.arr (ys.map .str)).normal) :
    xs = ys := by
  rw [normal_arr, normal_arr, Value.arr.injEq, List.map_map, List.map_map] at h
  exact List.map_injective_iff.2 (fun a b hab => Value.str.inj hab) h

theorem rowValue_injective {f g : String × Option String} (h : (rowValue f).normal = (rowValue g).normal) : f = g := by
  have hkeys : ["path", "blob_id"].Nodup := by decide
  have hpath : (Value.str f.1).normal = (Value.str g.1).normal := normal_value h hkeys (k := "path") (by simp) (by simp)
  have hblob : (Value.ofOption f.2).normal = (Value.ofOption g.2).normal :=
    normal_value h hkeys (k := "blob_id") (by simp) (by simp)
  refine Prod.ext (Value.str.inj hpath) ?_
  cases hf : f.2 <;> cases hg : g.2 <;> simp_all [Value.ofOption, Value.normal]

theorem rows_injective {rows rows' : ExtTreeMap String (Option String)}
    (h : (Value.arr (rows.toList.map rowValue)).normal = (Value.arr (rows'.toList.map rowValue)).normal) (path : String) :
    rows[path]? = rows'[path]? := by
  rw [normal_arr, normal_arr, Value.arr.injEq, List.map_map, List.map_map] at h
  have hlist : rows.toList = rows'.toList := List.map_injective_iff.2 (fun f g hfg => rowValue_injective hfg) h
  refine Option.ext fun blob => ?_
  rw [← ExtTreeMap.mem_toList_iff_getElem?_eq_some, hlist, ExtTreeMap.mem_toList_iff_getElem?_eq_some]

theorem identityObject_injective {sha256Hex : ByteArray → String} {m m' : Manifest} {inputs inputs' : List Value}
    {golden golden' : Option ByteArray} {compiler compiler' : String} {flags flags' depIds depIds' : List String}
    {binding binding' : Binding} {object object' : Value}
    (h : identityObject sha256Hex m inputs golden compiler flags depIds binding = .ok object)
    (h' : identityObject sha256Hex m' inputs' golden' compiler' flags' depIds' binding' = .ok object')
    (hnormal : object.normal = object'.normal) :
    m.digest = m'.digest ∧ (Value.arr inputs).normal = (Value.arr inputs').normal ∧ compiler = compiler' ∧
      flags = flags' ∧ depIds.Perm depIds' ∧ scopeBinding m.cacheScope binding = scopeBinding m'.cacheScope binding' ∧
      ∃ goldens goldens', goldenDigests sha256Hex m golden = .ok goldens ∧
        goldenDigests sha256Hex m' golden' = .ok goldens' ∧ goldens.Perm goldens' := by
  obtain ⟨goldens, hgoldens, h⟩ := bind_ok.1 h
  obtain ⟨scope, hscope, h⟩ := bind_ok.1 h
  obtain ⟨goldens', hgoldens', h'⟩ := bind_ok.1 h'
  obtain ⟨scope', hscope', h'⟩ := bind_ok.1 h'
  obtain rfl := Except.ok.inj h
  obtain rfl := Except.ok.inj h'
  have hkeys : ["manifest_digest", "input_blob_ids", "compiler_identity", "flags", "dependency_check_ids",
    "golden_digests", "scope_binding"].Nodup := by decide
  have hperm : ∀ {xs ys : List String}, sorted xs = sorted ys → xs.Perm ys := fun h =>
    (List.perm_insertionSort _ _).symm.trans ((List.Perm.of_eq h).trans (List.perm_insertionSort _ _))
  have hdigest : (Value.str m.digest).normal = (Value.str m'.digest).normal :=
    normal_value hnormal hkeys (k := "manifest_digest") (by simp) (by simp)
  have hinputs : (Value.arr inputs).normal = (Value.arr inputs').normal :=
    normal_value hnormal hkeys (k := "input_blob_ids") (by simp) (by simp)
  have hcompiler : (Value.str compiler).normal = (Value.str compiler').normal :=
    normal_value hnormal hkeys (k := "compiler_identity") (by simp) (by simp)
  have hflags : (Value.arr (flags.map .str)).normal = (Value.arr (flags'.map .str)).normal :=
    normal_value hnormal hkeys (k := "flags") (by simp) (by simp)
  have hdeps : (Value.arr ((sorted depIds).map .str)).normal = (Value.arr ((sorted depIds').map .str)).normal :=
    normal_value hnormal hkeys (k := "dependency_check_ids") (by simp) (by simp)
  have hgolden : (Value.arr ((sorted goldens).map .str)).normal = (Value.arr ((sorted goldens').map .str)).normal :=
    normal_value hnormal hkeys (k := "golden_digests") (by simp) (by simp)
  have hbinding : (Value.str scope).normal = (Value.str scope').normal :=
    normal_value hnormal hkeys (k := "scope_binding") (by simp) (by simp)
  exact ⟨Value.str.inj hdigest, hinputs, Value.str.inj hcompiler, map_str_injective hflags,
    hperm (map_str_injective hdeps), by rw [hscope, hscope', Value.str.inj hbinding],
    goldens, goldens', hgoldens, hgoldens', hperm (map_str_injective hgolden)⟩

/-- The digests of golden files tell their contents apart, as far as the hash does. -/
theorem goldenDigests_injective {sha256Hex : ByteArray → String} {m m' : Manifest} {read read' : String → Option ByteArray}
    {goldens goldens' : List String} (hinj : ∀ a b, m.oracle.golden.bind read = some a → m'.oracle.golden.bind read' = some b →
      sha256Hex a = sha256Hex b → a = b)
    (h : goldenDigests sha256Hex m (m.oracle.golden.bind read) = .ok goldens)
    (h' : goldenDigests sha256Hex m' (m'.oracle.golden.bind read') = .ok goldens') (hperm : goldens.Perm goldens') :
    m.oracle.golden.bind read = m'.oracle.golden.bind read' := by
  have hcases : ∀ (m : Manifest) (read : String → Option ByteArray) (goldens : List String),
      goldenDigests sha256Hex m (m.oracle.golden.bind read) = .ok goldens →
      goldens = (m.oracle.golden.bind read).toList.map sha256Hex := by
    intro m read goldens h
    unfold goldenDigests at h
    cases hpath : m.oracle.golden with
    | none =>
      rw [hpath] at h
      exact (Except.ok.inj h).symm
    | some path =>
      rw [hpath, Option.bind_some] at h
      rw [Option.bind_some]
      cases hread : read path with
      | none =>
        rw [hread] at h
        cases h
      | some bytes =>
        rw [hread] at h
        exact (Except.ok.inj h).symm
  rw [hcases m read goldens h, hcases m' read' goldens' h'] at hperm
  cases hg : m.oracle.golden.bind read with
  | none =>
    cases hg' : m'.oracle.golden.bind read' with
    | none => rfl
    | some b =>
      rw [hg, hg'] at hperm
      exact absurd hperm.length_eq (by simp)
  | some a =>
    cases hg' : m'.oracle.golden.bind read' with
    | none =>
      rw [hg, hg'] at hperm
      exact absurd hperm.length_eq (by simp)
    | some b =>
      rw [hg, hg'] at hperm
      have hsingle : [sha256Hex a] = [sha256Hex b] := List.perm_singleton.1 hperm
      rw [hinj a b hg hg' (List.cons.inj hsingle).1]

/-- Two gates with one id have equal parts, when the hash tells apart what was hashed for them. -/
theorem checked_parts {sha256Hex : ByteArray → String} {s s' : Setting} {ids ids' : ExtTreeMap String String} {n n' : Node}
    (hinj : ∀ a b, s.Hashed sha256Hex ids n a → s'.Hashed sha256Hex ids' n' b → sha256Hex a = sha256Hex b → a = b)
    (h : Checked sha256Hex s ids n) (h' : Checked sha256Hex s' ids' n') (hid : ids[n.id]? = ids'[n'.id]?) :
    n.manifest.digest = n'.manifest.digest ∧
      (∀ path : String, (inputRows s.find n.manifest)[path]? = (inputRows s'.find n'.manifest)[path]?) ∧
      n.manifest.oracle.golden.bind s.golden = n'.manifest.oracle.golden.bind s'.golden ∧
      s.compiler = s'.compiler ∧ s.flags = s'.flags ∧
      scopeBinding n.manifest.cacheScope s.binding = scopeBinding n'.manifest.cacheScope s'.binding ∧
      ∃ depIds depIds', dependencyIds ids n.manifest = .ok depIds ∧ dependencyIds ids' n'.manifest = .ok depIds' ∧
        depIds.Perm depIds' := by
  obtain ⟨object, text, hobject, htext, hget⟩ := h
  obtain ⟨object', text', hobject', htext', hget'⟩ := h'
  rw [hget, hget'] at hid
  have hbytes : text.toByteArray = text'.toByteArray :=
    hinj _ _ (Or.inr ⟨object, text, hobject, htext, rfl⟩) (Or.inr ⟨object', text', hobject', htext', rfl⟩)
      (Option.some.inj hid)
  obtain rfl : text = text' := String.toByteArray_inj.1 hbytes
  obtain ⟨depIds, hdeps, hobject⟩ := bind_ok.1 hobject
  obtain ⟨depIds', hdeps', hobject'⟩ := bind_ok.1 hobject'
  obtain ⟨hdigest, hinputs, hcompiler, hflags, hperm, hscope, goldens, goldens', hgoldens, hgoldens', hgperm⟩ :=
    identityObject_injective hobject hobject' (normal_of_canonical htext htext')
  have hgolden := goldenDigests_injective (fun a b ha hb => hinj a b (Or.inl ha) (Or.inl hb)) hgoldens hgoldens' hgperm
  exact ⟨hdigest, rows_injective hinputs, hgolden, hcompiler, hflags, hscope, depIds, depIds', hdeps, hdeps', hperm⟩

section Runs

variable {sha256Hex : ByteArray → String} {r r' : IdRun} {ids ids' : ExtTreeMap String String}

theorem alike_of_checked {n n' : Node} (hn : n ∈ r.graph.nodes) (hn' : n' ∈ r'.graph.nodes)
    (hinj : Set.InjOn sha256Hex (r.Hashed sha256Hex ids ∪ r'.Hashed sha256Hex ids'))
    (h : Checked sha256Hex r.setting ids n) (h' : Checked sha256Hex r'.setting ids' n')
    (hid : ids[n.id]? = ids'[n'.id]?) :
    Alike r r' n n' ∧ ∃ depIds depIds', dependencyIds ids n.manifest = .ok depIds ∧
      dependencyIds ids' n'.manifest = .ok depIds' ∧ depIds.Perm depIds' := by
  obtain ⟨hdigest, hrows, hgolden, hcompiler, hflags, hscope, hdeps⟩ :=
    checked_parts (fun a b ha hb => hinj (Or.inl ⟨n, hn, ha⟩) (Or.inr ⟨n', hn', hb⟩)) h h' hid
  refine ⟨⟨hdigest, fun path blob => ?_, hgolden, hcompiler, hflags, hscope⟩, hdeps⟩
  have hrow : (inputRows (filesUnder r.commit.tree) n.manifest)[path]? =
      (inputRows (filesUnder r'.commit.tree) n'.manifest)[path]? := hrows path
  unfold IdRun.Tracked
  rw [← inputRows_tracked, ← inputRows_tracked, hrow]

/-- Lists of ids that are the same up to order pair off the gates they belong to. -/
theorem pairs_of_perm {ds ds' : List String} {depIds depIds' : List String}
    (h : List.Forall₂ (fun d id => ids[d]? = some id) ds depIds)
    (h' : List.Forall₂ (fun d id => ids'[d]? = some id) ds' depIds') (hperm : depIds.Perm depIds') :
    ∃ pairs : List (String × String), pairs.map Prod.fst = ds ∧ (pairs.map Prod.snd).Perm ds' ∧
      ∀ p ∈ pairs, ∃ id, ids[p.1]? = some id ∧ ids'[p.2]? = some id := by
  obtain ⟨es, hes, hesperm⟩ := List.perm_comp_forall₂ hperm h'.flip
  have hzip : ∀ {ds es depIds : List String}, List.Forall₂ (fun d id => ids[d]? = some id) ds depIds →
      List.Forall₂ (fun id e => ids'[e]? = some id) depIds es → (ds.zip es).map Prod.fst = ds ∧
        (ds.zip es).map Prod.snd = es ∧ ∀ p ∈ ds.zip es, ∃ id, ids[p.1]? = some id ∧ ids'[p.2]? = some id := by
    intro ds es depIds hds hes
    induction hds generalizing es with
    | nil =>
      cases hes
      exact ⟨rfl, rfl, fun p hp => absurd hp (by simp)⟩
    | cons hd _ ih =>
      cases hes with
      | cons he hes =>
        obtain ⟨hfst, hsnd, hall⟩ := ih hes
        rw [List.zip_cons_cons, List.map_cons, List.map_cons, hfst, hsnd]
        exact ⟨rfl, rfl, List.forall_mem_cons.2 ⟨⟨_, hd, he⟩, hall⟩⟩
  obtain ⟨hfst, hsnd, hall⟩ := hzip h hes
  refine ⟨ds.zip es, hfst, ?_, hall⟩
  rwa [hsnd]

/-- Gates with one id are the same. By the place of the first in its order, since all it declares came before. -/
theorem same_of_id (h : r.ids sha256Hex = .ok ids) (h' : r'.ids sha256Hex = .ok ids')
    (hinj : Set.InjOn sha256Hex (r.Hashed sha256Hex ids ∪ r'.Hashed sha256Hex ids')) {g g' id : String}
    (hg : ids[g]? = some id) (hg' : ids'[g']? = some id) : Same r r' g g' := by
  obtain ⟨-, hkeys, hsplit⟩ := addIds_ok r.graph.ordered_nodup (fun _ _ => ExtTreeMap.getElem?_empty) h
  obtain ⟨-, hkeys', hsplit'⟩ := addIds_ok r'.graph.ordered_nodup (fun _ _ => ExtTreeMap.getElem?_empty) h'
  have hfind : ∀ {ids : ExtTreeMap String String} {r : IdRun} {g id : String},
      (∀ k : String, ids[k]? ≠ none → k ∈ r.graph.ordered.map Node.id ∨ (∅ : ExtTreeMap String String)[k]? ≠ none) →
      ids[g]? = some id → ∃ before n rest, r.graph.ordered = before ++ n :: rest ∧ n.id = g := by
    intro ids r g id hkeys hg
    have hmem := (hkeys g (by rw [hg]; exact Option.some_ne_none _)).resolve_right (by simp)
    obtain ⟨n, hn, rfl⟩ := List.mem_map.1 hmem
    obtain ⟨before, rest, heq⟩ := List.append_of_mem hn
    exact ⟨before, n, rest, heq, rfl⟩
  obtain ⟨before, n, rest, heq, rfl⟩ := hfind hkeys hg
  induction hlen : before.length using Nat.strong_induction_on generalizing before n rest g' id with
  | _ k ih =>
    obtain ⟨before', n', rest', heq', rfl⟩ := hfind hkeys' hg'
    obtain ⟨hchecked, hbefore⟩ := hsplit before n rest heq
    have hn : n ∈ r.graph.nodes := Graph.mem_ordered.1 (heq ▸ List.mem_append_right _ List.mem_cons_self)
    have hn' : n' ∈ r'.graph.nodes := Graph.mem_ordered.1 (heq' ▸ List.mem_append_right _ List.mem_cons_self)
    obtain ⟨halike, depIds, depIds', hdeps, hdeps', hperm⟩ :=
      alike_of_checked hn hn' hinj hchecked (hsplit' before' n' rest' heq').1 (hg.trans hg'.symm)
    obtain ⟨pairs, hfst, hsnd, hall⟩ := pairs_of_perm (dependencyIds_ok.1 hdeps) (dependencyIds_ok.1 hdeps') hperm
    refine .mk hn hn' halike pairs hfst hsnd fun p hp => ?_
    obtain ⟨id', hp1, hp2⟩ := hall p hp
    have hdeclared : p.1 ∈ declaredDependencies n.manifest := hfst ▸ List.mem_map_of_mem hp
    obtain ⟨m, hm, hmid⟩ := List.mem_map.1 ((hbefore p.1 hdeclared).resolve_right (by simp))
    obtain ⟨b1, b2, rfl⟩ := List.append_of_mem hm
    rw [← hmid]
    refine ih b1.length ?_ hp2 b1 m (b2 ++ n :: rest) ?_ (hmid ▸ hp1) rfl
    · rw [← hlen, List.length_append, List.length_cons]
      omega
    · rw [heq, List.append_assoc, List.cons_append]

end Runs

/-- Check ids bind everything they rest on. -/
theorem checkIds_bind (sha256Hex : ByteArray → String) :
    (∀ v w : Value, v.exact = true → w.exact = true → canonical v = canonical w → v.normal = w.normal) ∧
      ∀ (r r' : IdRun) (ids ids' : ExtTreeMap String String), r.ids sha256Hex = .ok ids → r'.ids sha256Hex = .ok ids' →
        Set.InjOn sha256Hex (r.Hashed sha256Hex ids ∪ r'.Hashed sha256Hex ids') → ∀ g g' id : String,
        ids[g]? = some id → ids'[g']? = some id → Same r r' g g' := by
  refine ⟨fun v w hv hw heq => ?_, fun r r' ids ids' h h' hinj g g' id hg hg' => same_of_id h h' hinj hg hg'⟩
  obtain ⟨text, htext⟩ := canonical_total hv
  exact normal_of_canonical htext (heq ▸ htext)

def loneRun : IdRun where
  commit := ⟨∅, fun _ => none⟩
  graph := loneGraph
  compiler := "rustc"
  flags := []
  binding := ⟨"aarch64", "", ""⟩

def loneId (_ : ByteArray) : String := "3607e855d767251a14aa3561f6ea295d77a28a41501018367e924e712e109d9e"

theorem lone_same : ∃ ids, loneRun.ids loneId = .ok ids ∧
    ids["a"]? = some "3607e855d767251a14aa3561f6ea295d77a28a41501018367e924e712e109d9e" ∧ Same loneRun loneRun "a" "a" := by
  obtain ⟨ids, hids⟩ : ∃ ids, loneRun.ids loneId = .ok ids := lone_total loneId loneRun.setting
  obtain ⟨-, -, hsplit⟩ := addIds_ok loneRun.graph.ordered_nodup (fun _ _ => ExtTreeMap.getElem?_empty) hids
  have hlone : loneNode ∈ loneGraph.ordered := Graph.mem_ordered.2 List.mem_cons_self
  obtain ⟨before, rest, heq⟩ := List.append_of_mem hlone
  obtain ⟨object, text, hobject, htext, hget⟩ := (hsplit before _ rest heq).1
  -- All that is hashed is the text of this one object.
  have hhashed : ∀ bytes, loneRun.Hashed loneId ids bytes → bytes = text.toByteArray := by
    rintro bytes ⟨n, hn, hgolden | ⟨object', text', hobject', htext', rfl⟩⟩
    · obtain rfl := List.mem_singleton.1 hn
      exact absurd hgolden (by simp [loneNode])
    · obtain rfl := List.mem_singleton.1 hn
      obtain rfl := Except.ok.inj (hobject.symm.trans hobject')
      rw [Except.ok.inj (htext.symm.trans htext')]
  have hinj : Set.InjOn loneId (loneRun.Hashed loneId ids ∪ loneRun.Hashed loneId ids) := by
    intro a ha b hb _
    rw [hhashed a (ha.elim id id), hhashed b (hb.elim id id)]
  exact ⟨ids, hids, hget, (checkIds_bind loneId).2 loneRun loneRun ids ids hids hids hinj "a" "a" _ hget hget⟩

end SovereignCore.AienTest
