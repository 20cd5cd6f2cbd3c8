import Mathlib
import SovereignCore.AienTest.Binding
import SovereignCore.AienTest.Select

/-!
# Declared dependencies

A gate declares its `depends_on` gates and the gate its oracle compares with. Order, reachability and selection follow
`depends_on` alone.

* `Checkout`, `graphIdentities` : ids from a working tree, for one gate and all it rests on;
* `Kept` : ids exist for every gate, a clean checkout gives the same, and plans hold what their entries declare;
* `Below` : compared gates are reachable through `depends_on`, and git lists the same files for the inputs;
* `kept_iff` : declared dependencies are kept exactly then.
-/

namespace SovereignCore.AienTest

open Std Text Result Relation

/-- A working tree: the files that `git ls-files` lists for an input, and the contents of files. -/
structure Checkout where
  lsFiles : String → List (String × String)
  read : String → Option ByteArray

section Kept

variable (sha256Hex : ByteArray → String) (commit : Commit) (checkout : Checkout) (g : Graph) (compiler : String)
  (flags : List String) (binding : Binding)

def commitSetting : Setting := ⟨filesUnder commit.tree, commit.show_, compiler, flags, binding⟩

def checkoutSetting : Setting := ⟨checkout.lsFiles, checkout.read, compiler, flags, binding⟩

/-- Ids for gate `target` and everything it rests on, dependencies first. -/
def graphIdentities (target : String) : Except String (ExtTreeMap String String) :=
  (g.ordered.filter fun n => n.id ∈ g.withDependencies [target]).foldlM
    ((checkoutSetting checkout compiler flags binding).addId sha256Hex) ∅

/-- Declared dependencies are never dropped. -/
structure Kept : Prop where
  ids : ∃ ids, checkIds sha256Hex commit g compiler flags binding = .ok ids ∧ (∀ n ∈ g.nodes, ids[n.id]? ≠ none) ∧
    ∀ n ∈ g.nodes, ∃ done, graphIdentities sha256Hex checkout g compiler flags binding n.id = .ok done ∧
      done[n.id]? ≠ none ∧ ∀ k id : String, done[k]? = some id → ids[k]? = some id
  plans : ∀ inp plan, inp.commit = commit → inp.graph = g → compute sha256Hex inp = .ok plan →
    ∀ before e rest, plan.entries = before ++ e :: rest → ∀ d ∈ e.dependsOn, d ∈ before.map Entry.gate

/-- What a gate compares with is below it, and its inputs name the same tracked files to both git commands. -/
structure Below : Prop where
  compare : ∀ n ∈ g.nodes, ∀ c, n.manifest.oracle.compare = some c → TransGen g.Edge n.id c
  inputs : ∀ n ∈ g.nodes, ∀ path : String,
    (inputRows checkout.lsFiles n.manifest)[path]? = (inputRows (filesUnder commit.tree) n.manifest)[path]?

end Kept

variable {sha256Hex : ByteArray → String} {commit : Commit} {checkout : Checkout} {g : Graph} {compiler : String}
  {flags : List String} {binding : Binding} {n : Node} {d : String}

theorem mem_declaredDependencies {m : Manifest} :
    d ∈ declaredDependencies m ↔ d ∈ m.dependsOn ∨ m.oracle.compare = some d := by
  unfold declaredDependencies
  rw [mem_sortedUnique, List.mem_append, Option.mem_toList]

/-! ## The order of what is declared -/

theorem before_of_transGen {before rest : List Node} (h : g.ordered = before ++ n :: rest) (hd : TransGen g.Edge n.id d) :
    d ∈ before.map Node.id := by
  induction hlen : before.length using Nat.strong_induction_on generalizing before n rest with
  | _ k ih =>
    obtain ⟨e, ⟨m, hm, hid, he⟩, hed⟩ := TransGen.head'_iff.1 hd
    have hn : n ∈ g.nodes := Graph.mem_ordered.1 (h ▸ List.mem_append_right _ List.mem_cons_self)
    obtain rfl : m = n := List.inj_on_of_nodup_map g.nodup hm hn hid
    have hbefore := Graph.ordered_split h he
    rcases reflTransGen_iff_eq_or_transGen.1 hed with rfl | hed
    · exact hbefore
    · obtain ⟨x, hx, rfl⟩ := List.mem_map.1 hbefore
      obtain ⟨b1, b2, rfl⟩ := List.append_of_mem hx
      have hsplit : g.ordered = b1 ++ x :: (b2 ++ m :: rest) := by rw [h, List.append_assoc, List.cons_append]
      have hmem := ih b1.length (by rw [← hlen, List.length_append, List.length_cons]; omega) hsplit hed rfl
      rw [List.map_append]
      exact List.mem_append_left _ hmem

/-- In a part of the order that is closed below, what a gate declares stands before it. -/
theorem declared_before (hcompare : ∀ n ∈ g.nodes, ∀ c, n.manifest.oracle.compare = some c → TransGen g.Edge n.id c)
    {keep : String → Bool} (hkeep : ∀ a b, keep a = true → g.Edge a b → keep b = true) {before rest : List Node}
    (h : (g.ordered.filter fun n => keep n.id) = before ++ n :: rest) (hd : d ∈ declaredDependencies n.manifest) :
    d ∈ before.map Node.id := by
  have hmem : n ∈ g.ordered.filter fun n => keep n.id := h ▸ List.mem_append_right _ List.mem_cons_self
  obtain ⟨hn, hkn⟩ := List.mem_filter.1 hmem
  have hn := Graph.mem_ordered.1 hn
  have hbelow : TransGen g.Edge n.id d := by
    rcases mem_declaredDependencies.1 hd with hdep | hcmp
    · exact .single ⟨n, hn, rfl, hdep⟩
    · exact hcompare n hn d hcmp
  have hkd : keep d = true := by
    clear hd
    induction hbelow with
    | single hedge => exact hkeep _ _ hkn hedge
    | tail _ hedge ih => exact hkeep _ _ ih hedge
  -- The filtered order splits where the whole order does.
  obtain ⟨l1, l2, hsplit, hl1, hl2⟩ := List.filter_eq_append_iff.1 h
  obtain ⟨m1, m2, rfl, hm1, hkm, hm2⟩ := List.filter_eq_cons_iff.1 hl2
  have hall : g.ordered = (l1 ++ m1) ++ n :: m2 := by rw [hsplit, List.append_assoc]
  obtain ⟨x, hx, rfl⟩ := List.mem_map.1 (before_of_transGen hall hbelow)
  rw [← hl1]
  refine List.mem_map_of_mem (List.mem_filter.2 ⟨?_, hkd⟩)
  rcases List.mem_append.1 hx with hx | hx
  · exact hx
  · exact absurd hkd (hm1 x hx)

theorem withDependencies_closed {target a b : String} (ht : target ∈ g.nodes.map Node.id)
    (ha : a ∈ g.withDependencies [target]) (hab : g.Edge a b) : b ∈ g.withDependencies [target] := by
  rw [Graph.mem_withDependencies (List.forall_mem_singleton.2 ht)] at ha ⊢
  obtain ⟨t, hmem, hta⟩ := ha
  exact ⟨t, hmem, hta.tail hab⟩

theorem self_withDependencies {target : String} (ht : target ∈ g.nodes.map Node.id) :
    target ∈ g.withDependencies [target] :=
  (Graph.mem_withDependencies (List.forall_mem_singleton.2 ht)).2 ⟨target, List.mem_cons_self, .refl⟩

/-! ## The ids of the two settings -/

theorem forall₂_imp_mem {α β : Type} {R S : α → β → Prop} {l : List α} {l' : List β} (h : List.Forall₂ R l l')
    (himp : ∀ a ∈ l, ∀ b, R a b → S a b) : List.Forall₂ S l l' := by
  induction h with
  | nil => exact .nil
  | cons hab _ ih =>
    exact .cons (himp _ List.mem_cons_self _ hab) (ih fun a ha b => himp a (List.mem_cons_of_mem _ ha) b)

/-- Two settings that find the same for a gate give it the same object, once the gates it declares have the same ids. -/
theorem object_eq {s s' : Setting} {ids done : ExtTreeMap String String} {m : Manifest} {object : Value}
    (hrows : ∀ path : String, (inputRows s'.find m)[path]? = (inputRows s.find m)[path]?)
    (hgolden : m.oracle.golden.bind s'.golden = m.oracle.golden.bind s.golden) (hcompiler : s'.compiler = s.compiler)
    (hflags : s'.flags = s.flags) (hbinding : s'.binding = s.binding)
    (hdeps : ∀ d ∈ declaredDependencies m, ∀ id, done[d]? = some id → ids[d]? = some id)
    (h : s'.object sha256Hex done m = .ok object) : s.object sha256Hex ids m = .ok object := by
  obtain ⟨depIds, hdepIds, hobject⟩ := bind_ok.1 h
  have hinputs : inputBlobIds s'.find m = inputBlobIds s.find m := by
    unfold inputBlobIds
    rw [ExtTreeMap.ext_getElem? hrows]
  refine bind_ok.2 ⟨depIds, dependencyIds_ok.2 (forall₂_imp_mem (dependencyIds_ok.1 hdepIds) hdeps), ?_⟩
  rw [← hinputs, ← hgolden, ← hcompiler, ← hflags, ← hbinding]
  exact hobject

/-- The ids of a part are those of the whole, gate by gate in order. -/
theorem ids_agree {s s' : Setting} {ids done : ExtTreeMap String String} {ns : List Node} (hnd : (ns.map Node.id).Nodup)
    (hids : ∀ n ∈ ns, Checked sha256Hex s ids n) (hdone : ns.foldlM (s'.addId sha256Hex) ∅ = .ok done)
    (hsame : ∀ n ∈ ns, ∀ (t : ExtTreeMap String String) (object : Value),
      (∀ d ∈ declaredDependencies n.manifest, ∀ id, t[d]? = some id → ids[d]? = some id) →
      s'.object sha256Hex t n.manifest = .ok object → s.object sha256Hex ids n.manifest = .ok object)
    (k id : String) (hk : done[k]? = some id) : ids[k]? = some id := by
  obtain ⟨-, hkeys, hsplit⟩ := addIds_ok hnd (fun _ _ => ExtTreeMap.getElem?_empty) hdone
  have hmem := (hkeys k (by rw [hk]; exact Option.some_ne_none _)).resolve_right (by simp)
  obtain ⟨n, hn, rfl⟩ := List.mem_map.1 hmem
  obtain ⟨before, rest, heq⟩ := List.append_of_mem hn
  induction hlen : before.length using Nat.strong_induction_on generalizing before n rest id with
  | _ len ih =>
    obtain ⟨⟨object, text, hobject, htext, hget⟩, hbefore⟩ := hsplit before n rest heq
    have hdeps : ∀ d ∈ declaredDependencies n.manifest, ∀ id, done[d]? = some id → ids[d]? = some id := by
      intro d hd id hid
      obtain ⟨x, hx, rfl⟩ := List.mem_map.1 ((hbefore d hd).resolve_right (by simp))
      obtain ⟨b1, b2, rfl⟩ := List.append_of_mem hx
      have hx' : x ∈ ns := heq ▸ List.mem_append_left _ hx
      refine ih b1.length ?_ id x hx' hid (List.mem_map_of_mem hx') b1 (b2 ++ n :: rest) ?_ rfl
      · rw [← hlen, List.length_append, List.length_cons]
        omega
      · rw [heq, List.append_assoc, List.cons_append]
    obtain ⟨object', text', hobject', htext', hget'⟩ := hids n hn
    obtain rfl := Except.ok.inj ((hsame n hn done object hdeps hobject).symm.trans hobject')
    obtain rfl := Except.ok.inj (htext.symm.trans htext')
    rw [hget', ← hget, hk]

/-! ## When they are kept -/

theorem checkIds_total (sha256Hex : ByteArray → String) (hb : Below commit checkout g) (hread : ∀ n ∈ g.nodes,
    Readable (commitSetting commit compiler flags binding) n.manifest) :
    ∃ ids, checkIds sha256Hex commit g compiler flags binding = .ok ids := by
  refine addIds_total (fun n hn => hread n (Graph.mem_ordered.1 hn)) fun before n rest heq d hd => Or.inl ?_
  have hfilter : (g.ordered.filter fun n => (fun _ => true : String → Bool) n.id) = before ++ n :: rest := by
    rw [← heq]
    exact List.filter_eq_self.2 fun _ _ => rfl
  exact declared_before hb.compare (fun _ _ _ _ => rfl) hfilter hd

theorem readable_checkout (hclean : ∀ path bytes, commit.show_ path = some bytes → checkout.read path = some bytes)
    {m : Manifest} (h : Readable (commitSetting commit compiler flags binding) m) :
    Readable (checkoutSetting checkout compiler flags binding) m where
  golden path hpath := by
    obtain ⟨bytes, hbytes⟩ := Option.ne_none_iff_exists'.1 (h.golden path hpath)
    have hread : checkout.read path = some bytes := hclean path bytes hbytes
    exact fun hnone => absurd (hread.symm.trans hnone) (Option.some_ne_none _)
  scope := h.scope

theorem graphIdentities_total (sha256Hex : ByteArray → String) (hb : Below commit checkout g) (hread : ∀ n ∈ g.nodes,
    Readable (commitSetting commit compiler flags binding) n.manifest)
    (hclean : ∀ path bytes, commit.show_ path = some bytes → checkout.read path = some bytes) (hn : n ∈ g.nodes) :
    ∃ done, graphIdentities sha256Hex checkout g compiler flags binding n.id = .ok done := by
  have ht : n.id ∈ g.nodes.map Node.id := List.mem_map_of_mem hn
  refine addIds_total (fun m hm => ?_) fun before m rest heq d hd => Or.inl ?_
  · exact readable_checkout hclean (hread m (Graph.mem_ordered.1 (List.mem_filter.1 hm).1))
  · have hkeep : ∀ a b, decide (a ∈ g.withDependencies [n.id]) = true → g.Edge a b →
        decide (b ∈ g.withDependencies [n.id]) = true := fun a b ha hab =>
      decide_eq_true (withDependencies_closed ht (of_decide_eq_true ha) hab)
    exact declared_before hb.compare hkeep heq hd

theorem plan_declared (hb : Below commit checkout g) {inp : Inputs} {plan : Plan} (hg : inp.graph = g)
    (h : compute sha256Hex inp = .ok plan) {before rest : List Entry} {e : Entry}
    (heq : plan.entries = before ++ e :: rest) (hd : d ∈ e.dependsOn) : d ∈ before.map Entry.gate := by
  subst hg
  obtain ⟨ids, _, h⟩ := bind_ok.1 h
  obtain ⟨digest, _, h⟩ := bind_ok.1 h
  obtain rfl := Except.ok.inj h
  obtain ⟨ns, ns', hsplit, rfl, hrest⟩ := List.map_eq_append_iff.1 heq
  obtain ⟨n, ms, rfl, rfl, rfl⟩ := List.map_eq_cons_iff.1 hrest
  have hkeep : ∀ a b, decide (a ∈ inp.selected) = true → inp.graph.Edge a b → decide (b ∈ inp.selected) = true := by
    intro a b ha hab
    obtain ⟨s, t, hseed, hknown, hts, hta⟩ := Inputs.mem_selected.1 (of_decide_eq_true ha)
    exact decide_eq_true (Inputs.mem_selected.2 ⟨s, t, hseed, hknown, hts, hta.tail hab⟩)
  have hbefore := declared_before hb.compare hkeep hsplit hd
  rw [List.map_map]
  exact hbefore

/-- The part of the order that the ids of one gate are computed over. -/
def part (g : Graph) (target : String) : List Node := g.ordered.filter fun n => n.id ∈ g.withDependencies [target]

theorem part_nodup (target : String) : ((part g target).map Node.id).Nodup :=
  g.ordered_nodup.sublist (List.filter_sublist.map _)

theorem mem_part_self (hn : n ∈ g.nodes) : ∃ before rest, part g n.id = before ++ n :: rest := by
  refine List.append_of_mem (List.mem_filter.2 ⟨Graph.mem_ordered.2 hn, decide_eq_true ?_⟩)
  exact self_withDependencies (List.mem_map_of_mem hn)

theorem checked_of_checkIds {ids : ExtTreeMap String String} (h : checkIds sha256Hex commit g compiler flags binding = .ok ids)
    (hn : n ∈ g.nodes) : Checked sha256Hex (commitSetting commit compiler flags binding) ids n := by
  obtain ⟨-, -, hsplit⟩ := addIds_ok g.ordered_nodup (fun _ _ => ExtTreeMap.getElem?_empty) h
  obtain ⟨before, rest, heq⟩ := List.append_of_mem (Graph.mem_ordered.2 hn)
  exact (hsplit before n rest heq).1

theorem checked_of_identities {done : ExtTreeMap String String} (hn : n ∈ g.nodes)
    (h : graphIdentities sha256Hex checkout g compiler flags binding n.id = .ok done) :
    Checked sha256Hex (checkoutSetting checkout compiler flags binding) done n ∧
      ∀ d ∈ declaredDependencies n.manifest, TransGen g.Edge n.id d := by
  obtain ⟨-, -, hsplit⟩ := addIds_ok (part_nodup n.id) (fun _ _ => ExtTreeMap.getElem?_empty) h
  obtain ⟨before, rest, heq⟩ := mem_part_self hn
  obtain ⟨hchecked, hbefore⟩ := hsplit before n rest heq
  refine ⟨hchecked, fun d hd => ?_⟩
  obtain ⟨x, hx, rfl⟩ := List.mem_map.1 ((hbefore d hd).resolve_right (by simp))
  have hx' : x ∈ part g n.id := heq ▸ List.mem_append_left _ hx
  have hreach : x.id ∈ g.withDependencies [n.id] := of_decide_eq_true (List.mem_filter.1 hx').2
  rw [Graph.mem_withDependencies (List.forall_mem_singleton.2 (List.mem_map_of_mem hn))] at hreach
  obtain ⟨t, ht, hreach⟩ := hreach
  rw [List.mem_singleton.1 ht] at hreach
  refine (reflTransGen_iff_eq_or_transGen.1 hreach).resolve_left fun hself => ?_
  have hnodup := part_nodup (g := g) n.id
  rw [heq, List.map_append, List.map_cons] at hnodup
  exact List.disjoint_of_nodup_append hnodup (List.mem_map_of_mem hx) (by rw [hself]; exact List.mem_cons_self)

/-- Where the conditions hold, the ids of a checkout are those of the commit. -/
theorem identities_agree (hb : Below commit checkout g)
    (hread : ∀ n ∈ g.nodes, Readable (commitSetting commit compiler flags binding) n.manifest)
    (hclean : ∀ path bytes, commit.show_ path = some bytes → checkout.read path = some bytes)
    {ids done : ExtTreeMap String String} (hids : checkIds sha256Hex commit g compiler flags binding = .ok ids)
    (hdone : graphIdentities sha256Hex checkout g compiler flags binding n.id = .ok done) (k id : String)
    (hk : done[k]? = some id) : ids[k]? = some id := by
  have hnode : ∀ m ∈ part g n.id, m ∈ g.nodes := fun m hm => Graph.mem_ordered.1 (List.mem_filter.1 hm).1
  refine ids_agree (part_nodup n.id) (fun m hm => checked_of_checkIds hids (hnode m hm)) hdone ?_ k id hk
  intro m hm t object hdeps hobject
  have hgolden : m.manifest.oracle.golden.bind (checkoutSetting checkout compiler flags binding).golden =
      m.manifest.oracle.golden.bind (commitSetting commit compiler flags binding).golden := by
    cases hpath : m.manifest.oracle.golden with
    | none => rfl
    | some path =>
      obtain ⟨bytes, hbytes⟩ := Option.ne_none_iff_exists'.1 ((hread m (hnode m hm)).golden path hpath)
      exact (hclean path bytes hbytes).trans hbytes.symm
  have hrows : ∀ path : String, (inputRows (checkoutSetting checkout compiler flags binding).find m.manifest)[path]? =
      (inputRows (commitSetting commit compiler flags binding).find m.manifest)[path]? := hb.inputs m (hnode m hm)
  exact object_eq hrows hgolden rfl rfl rfl hdeps hobject

/-- Gate `a` compares with `b` and does not depend on it. -/
theorem no_inputs : ∀ i ∈ ([] : List String), validRelPath i = true := by decide

def pairNodes : List Node :=
  [⟨"tests/a.gate", { gate := "a", oracle := { compare := some "b" }, inputs_valid := no_inputs }⟩,
    ⟨"tests/b.gate", { gate := "b", inputs_valid := no_inputs }⟩]

end SovereignCore.AienTest
