import SovereignCore.Lib.Framed
import SovereignCore.Lib.Machine
import SovereignCore.Lib.Text
import SovereignCore.Runtime.Arena

/-!
# Commits and the object root of a world

`commit_draft` makes a world whose object root is the hash of the parent's root and of a hash for each staged object,
in key order. A root world starts with zeros and a fork keeps the root. The hash function is a parameter; the copies of
the staged bytes and the effects of a draft are left out, since nothing reads them back.

* `Objects`, `WorldDraft`, `stageObject`, `commitDraft` : staged objects and the commit;
* `Op`, `Kept.step` : a store at work, with what each world was committed from and what was hashed;
* `Bound`, `bound_step` : every root is computed from the commits of its world;
* `object_root_binds` : worlds of equal roots were committed from the same objects.
-/

namespace SovereignCore.Runtime

open Std Text Prog

/-- Objects by key. Lengths are `usize`. -/
@[ext]
structure Objects where
  entries : ExtTreeMap String (List UInt8)
  sized : ∀ (key : String) (data : List UInt8), entries[key]? = some data →
    (utf8 key).length < 2 ^ 64 ∧ data.length < 2 ^ 64

namespace Objects

def empty : Objects where
  entries := ∅
  sized := by
    intro key data h
    rw [ExtTreeMap.getElem?_empty] at h
    cases h

def insert (o : Objects) (key : String) (data : List UInt8) (hkey : (utf8 key).length < 2 ^ 64)
    (hdata : data.length < 2 ^ 64) : Objects where
  entries := o.entries.insert key data
  sized := by
    intro key' data' h
    rw [Table.get_insert] at h
    split at h
    · rename_i heq
      obtain rfl := Option.some.inj h
      exact heq ▸ ⟨hkey, hdata⟩
    · exact o.sized key' data' h

def sorted (o : Objects) : List (String × List UInt8) :=
  (Text.sorted o.entries.keys).map fun key => (key, o.entries[key]?.getD [])

theorem mem_sorted {o : Objects} {key : String} {data : List UInt8} :
    (key, data) ∈ o.sorted ↔ o.entries[key]? = some data := by
  unfold sorted
  simp only [List.mem_map, Prod.mk.injEq, Text.mem_sorted, ExtTreeMap.mem_keys]
  constructor
  · rintro ⟨key', hmem, rfl, rfl⟩
    obtain ⟨data, hdata⟩ := Table.mem_iff.1 hmem
    rw [hdata, Option.getD_some]
  · intro h
    exact ⟨key, Table.mem_iff.2 ⟨data, h⟩, rfl, by rw [h, Option.getD_some]⟩

theorem sorted_inj {o o' : Objects} (h : o.sorted = o'.sorted) : o = o' := by
  apply Objects.ext
  apply ExtTreeMap.ext_getElem?
  intro key
  apply Option.ext
  intro data
  rw [← mem_sorted, ← mem_sorted, h]

end Objects

structure WorldDraft where
  baseWorldId : Nat
  stagedObjects : Objects

namespace WorldDraft

def new (baseWorldId : Nat) : WorldDraft := ⟨baseWorldId, .empty⟩

def stageObject (d : WorldDraft) (key : String) (data : List UInt8) (hkey : (utf8 key).length < 2 ^ 64)
    (hdata : data.length < 2 ^ 64) : WorldDraft :=
  { d with stagedObjects := d.stagedObjects.insert key data hkey hdata }

end WorldDraft

/-! ## What a commit hashes -/

def zeroRoot : Root := .replicate 32 0

def blobBytes (entry : String × List UInt8) : List UInt8 :=
  (leBytes 8 (utf8 entry.1).length ++ utf8 entry.1) ++ (leBytes 8 entry.2.length ++ entry.2)

/-- `blobBytes` can be read back. -/
theorem framed_blob : Framed (fun e : String × List UInt8 => (utf8 e.1).length < 256 ^ 8 ∧ e.2.length < 256 ^ 8)
    blobBytes :=
  ((framed_leBytes 8).counted fun _ _ => utf8_inj.1).append ((framed_leBytes 8).counted Function.injective_id)

theorem framed_root : Framed (fun _ => True) fun r : Root => r.toList :=
  .of_width (n := 32) (fun r => by simp) fun _ _ => Vector.toList_inj.1

section Hash

variable (sha : List UInt8 → Root)

def rootBytes (parent : Root) (o : Objects) : List UInt8 :=
  parent.toList ++ (o.sorted.map fun e => sha (blobBytes e)).flatMap fun r => r.toList

def commitRoot (parent : Root) (o : Objects) : Root := sha (rootBytes sha parent o)

def hashedBy (parent : Root) (o : Objects) : List (List UInt8) := rootBytes sha parent o :: o.sorted.map blobBytes

namespace WorldStore

def commitDraft (draft : WorldDraft) (timestamp : UInt64) : Prog WorldStore String Nat := do
  let ws ← get
  let parent ← orFail (ws.getWorld draft.baseWorldId) s!"Base world {draft.baseWorldId} not found"
  set (ws.add fun id => { parent with
    id := id
    parent := some draft.baseWorldId
    objectRoot := commitRoot sha parent.objectRoot draft.stagedObjects
    createdAt := timestamp })
  pure ws.nextWorldId

/-- The world is gone, and with it the worlds that are not retained. -/
def releaseWorld (ws : WorldStore) (worldId : Nat) : WorldStore := (ws.dropWorld worldId).collectGarbage

end WorldStore

variable {sha} {S : Set (List UInt8)} {p q : Root} {o o' : Objects}

theorem commitRoot_inj (hinj : Set.InjOn sha S) (hp : ∀ x ∈ hashedBy sha p o, x ∈ S) (hq : ∀ x ∈ hashedBy sha q o', x ∈ S)
    (h : commitRoot sha p o = commitRoot sha q o') : p = q ∧ o = o' := by
  have hbytes : rootBytes sha p o = rootBytes sha q o' := hinj (hp _ List.mem_cons_self) (hq _ List.mem_cons_self) h
  obtain ⟨hparent, hblobs⟩ := framed_root trivial trivial hbytes
  have hne : ∀ r : Root, r.toList ≠ [] := by
    intro r hnil
    have hlen : r.toList.length = 32 := by simp
    rw [hnil] at hlen
    cases hlen
  have hhashes : o.sorted.map (fun e => sha (blobBytes e)) = o'.sorted.map fun e => sha (blobBytes e) :=
    framed_root.flatMap_inj hne (fun _ _ => trivial) (fun _ _ => trivial) hblobs
  refine ⟨hparent, Objects.sorted_inj ?_⟩
  -- the hashes one by one
  have hsized : ∀ (o : Objects), ∀ e ∈ o.sorted, (utf8 e.1).length < 256 ^ 8 ∧ e.2.length < 256 ^ 8 := fun o e he =>
    o.sized e.1 e.2 (Objects.mem_sorted.1 he)
  apply List.ext_getElem
  · simpa using congrArg List.length hhashes
  · intro i hi hi'
    have heq : sha (blobBytes o.sorted[i]) = sha (blobBytes o'.sorted[i]) := by
      have hget := congrArg (fun l => l[i]?) hhashes
      simpa [hi, hi'] using hget
    have hblob := hinj (hp _ (List.mem_cons_of_mem _ (List.mem_map_of_mem (List.getElem_mem hi))))
      (hq _ (List.mem_cons_of_mem _ (List.mem_map_of_mem (List.getElem_mem hi')))) heq
    exact (framed_blob (u := []) (v := []) (hsized o _ (List.getElem_mem hi)) (hsized o' _ (List.getElem_mem hi'))
      (by simpa using hblob)).1

/-! ## A store at work -/

inductive Op
  | createRootWorld (tokenRoot memoryRoot capabilitySet timestamp : UInt64)
  | forkWorld (parentId : Nat) (timestamp : UInt64)
  | commitDraft (draft : WorldDraft) (timestamp : UInt64)
  | dropWorld (worldId : Nat)
  | releaseWorld (worldId : Nat)
  | collectGarbage

def WorldStore.apply (sha : List UInt8 → Root) (ws : WorldStore) : Op → Option WorldStore
  | .createRootWorld tokenRoot memoryRoot capabilitySet timestamp =>
    some (ws.createRootWorld tokenRoot memoryRoot capabilitySet timestamp).2
  | .forkWorld parentId timestamp => (WorldStore.forkWorld parentId timestamp ws).state?
  | .commitDraft draft timestamp => (WorldStore.commitDraft sha draft timestamp ws).state?
  | .dropWorld worldId => some (ws.dropWorld worldId)
  | .releaseWorld worldId => some (ws.releaseWorld worldId)
  | .collectGarbage => some ws.collectGarbage

/-- A store, the commits since the root that led to each world, and everything it has hashed. -/
structure Kept where
  store : WorldStore
  commits : Nat → List Objects
  hashed : List (List UInt8)

namespace Kept

def new : Kept := ⟨.new, fun _ => [], []⟩

/-- The commits after a call: a world starts with none, or with those of the world it was made from. -/
def record (s : Kept) : Op → Nat → List Objects
  | .createRootWorld .. => Function.update s.commits s.store.nextWorldId []
  | .forkWorld parentId _ =>
    if (s.store.getWorld parentId).isSome then
      Function.update s.commits s.store.nextWorldId (s.commits parentId)
    else s.commits
  | .commitDraft draft _ =>
    if (s.store.getWorld draft.baseWorldId).isSome then
      Function.update s.commits s.store.nextWorldId (s.commits draft.baseWorldId ++ [draft.stagedObjects])
    else s.commits
  | _ => s.commits

def hashes (sha : List UInt8 → Root) (s : Kept) : Op → List (List UInt8)
  | .commitDraft draft _ =>
    match s.store.getWorld draft.baseWorldId with
    | some parent => hashedBy sha parent.objectRoot draft.stagedObjects
    | none => []
  | _ => []

def step (sha : List UInt8 → Root) (s : Kept) (op : Op) : Option Kept :=
  (s.store.apply sha op).map fun store => ⟨store, s.record op, s.hashes sha op ++ s.hashed⟩

end Kept

/-- `r` is the root after some commits, with all that they hashed in `S`. -/
inductive Rooted (sha : List UInt8 → Root) (S : Set (List UInt8)) : List Objects → Root → Prop
  | zero : Rooted sha S [] zeroRoot
  | commit {commits : List Objects} {parent : Root} {o : Objects} : Rooted sha S commits parent →
    (∀ x ∈ hashedBy sha parent o, x ∈ S) → Rooted sha S (commits ++ [o]) (commitRoot sha parent o)

theorem Rooted.mono {T : Set (List UInt8)} {commits : List Objects} {r : Root} (hST : S ⊆ T)
    (h : Rooted sha S commits r) : Rooted sha T commits r := by
  induction h with
  | zero => exact .zero
  | commit _ hmem ih => exact .commit ih fun x hx => hST (hmem x hx)

theorem Rooted.commits_eq {l l' : List Objects} {r : Root} (hinj : Set.InjOn sha S) (hzero : ∀ x ∈ S, sha x ≠ zeroRoot)
    (h : Rooted sha S l r) (h' : Rooted sha S l' r) : l = l' := by
  induction h generalizing l' with
  | zero =>
    -- a commit's root is a hash
    generalize hz : zeroRoot = r at h'
    cases h' with
    | zero => rfl
    | commit _ hmem => exact absurd hz.symm (hzero _ (hmem _ List.mem_cons_self))
  | @commit commits parent o _ hmem ih =>
    generalize hr : commitRoot sha parent o = r at h'
    cases h' with
    | zero => exact absurd hr (hzero _ (hmem _ List.mem_cons_self))
    | commit hparent hmem' =>
      obtain ⟨rfl, rfl⟩ := commitRoot_inj hinj hmem hmem' hr
      rw [ih hparent]

/-! ## Every root is computed from the commits -/

/-- How a world of the store after a step came to be. -/
inductive Origin (sha : List UInt8 → Root) (s s' : Kept) (id : Nat) (w : WorldManifest) : Prop
  | kept (hw : s.store.getWorld id = some w) (hcommits : s'.commits id = s.commits id)
  | root (hroot : w.objectRoot = zeroRoot) (hcommits : s'.commits id = [])
  | fork (parentId : Nat) (parent : WorldManifest) (hparent : s.store.getWorld parentId = some parent)
    (hroot : w.objectRoot = parent.objectRoot) (hcommits : s'.commits id = s.commits parentId)
  | commit (parentId : Nat) (parent : WorldManifest) (o : Objects) (hparent : s.store.getWorld parentId = some parent)
    (hroot : w.objectRoot = commitRoot sha parent.objectRoot o) (hcommits : s'.commits id = s.commits parentId ++ [o])
    (hhashed : ∀ x ∈ hashedBy sha parent.objectRoot o, x ∈ s'.hashed)

namespace WorldStore

variable {ws : WorldStore} {id worldId : Nat} {w : WorldManifest}

theorem getWorld_dropWorld (h : (ws.dropWorld worldId).getWorld id = some w) : ws.getWorld id = some w := by
  have herase : (ws.worlds.erase worldId)[id]? = some w := h
  rw [Table.get_erase] at herase
  split at herase
  · cases herase
  · exact herase

theorem getWorld_collectGarbage (h : ws.collectGarbage.getWorld id = some w) : ws.getWorld id = some w := by
  have hfilter : (ws.worlds.filter fun id _ => ws.retainedRoots.contains id)[id]? = some w := h
  rw [ExtTreeMap.getElem?_filter] at hfilter
  exact (Option.pfilter_eq_some_iff.1 hfilter).1

/-- The worlds after a new one: itself, and those before it, whose ids are others. -/
theorem getWorld_add_cases {manifest : Nat → WorldManifest} (h : (ws.add manifest).getWorld id = some w) :
    (id = ws.nextWorldId ∧ w = manifest ws.nextWorldId) ∨ (id ≠ ws.nextWorldId ∧ ws.getWorld id = some w) := by
  rw [getWorld_add] at h
  split at h
  · rename_i heq
    exact Or.inl ⟨heq.symm, (Option.some.inj h).symm⟩
  · rename_i hne
    exact Or.inr ⟨Ne.symm hne, h⟩

/-- A world made from another: the call is refused without it, and then leaves the store as it was. -/
theorem state_derived (message : String) (make : WorldStore → WorldManifest → WorldStore) :
    ((do
      let ws ← Prog.get
      let parent ← orFail (ws.getWorld worldId) message
      Prog.set (make ws parent)
      pure ws.nextWorldId : Prog WorldStore String Nat) ws).state? =
      some (match ws.getWorld worldId with
        | none => ws
        | some parent => make ws parent) := by
  show Outcome.state? ((orFail (ws.getWorld worldId) message >>= fun parent =>
    Prog.set (make ws parent) >>= fun _ => pure ws.nextWorldId) ws) = _
  cases ws.getWorld worldId with
  | none => rfl
  | some parent => rfl

theorem forkWorld_state {timestamp : UInt64} : (forkWorld worldId timestamp ws).state? = some (
    match ws.getWorld worldId with
    | none => ws
    | some parent => ws.add fun id => { parent with id := id, parent := some worldId, createdAt := timestamp }) :=
  state_derived _ _

theorem commitDraft_state {draft : WorldDraft} {timestamp : UInt64} :
    (commitDraft sha draft timestamp ws).state? = some (
      match ws.getWorld draft.baseWorldId with
      | none => ws
      | some parent => ws.add fun id => { parent with
          id := id
          parent := some draft.baseWorldId
          objectRoot := commitRoot sha parent.objectRoot draft.stagedObjects
          createdAt := timestamp }) :=
  state_derived _ _

end WorldStore

theorem Kept.origin {s s' : Kept} {op : Op} (h : s.step sha op = some s') {id : Nat} {w : WorldManifest}
    (hw : s'.store.getWorld id = some w) : Origin sha s s' id w := by
  obtain ⟨store, happly, rfl⟩ := Option.map_eq_some_iff.1 h
  cases op with
  | createRootWorld tokenRoot memoryRoot capabilitySet timestamp =>
    obtain rfl := Option.some.inj happly
    obtain ⟨rfl, rfl⟩ | ⟨hne, hw⟩ := WorldStore.getWorld_add_cases hw
    · exact .root rfl (Function.update_self ..)
    · exact .kept hw (Function.update_of_ne hne ..)
  | forkWorld parentId timestamp =>
    obtain rfl := Option.some.inj (WorldStore.forkWorld_state.symm.trans happly)
    cases hparent : s.store.getWorld parentId with
    | none =>
      simp only [hparent] at hw
      exact .kept hw (congrFun (if_neg (by simp [hparent])) id)
    | some parent =>
      simp only [hparent] at hw
      have hrecord : s.record (.forkWorld parentId timestamp) =
          Function.update s.commits s.store.nextWorldId (s.commits parentId) := if_pos (by simp [hparent])
      obtain ⟨rfl, rfl⟩ | ⟨hne, hw⟩ := WorldStore.getWorld_add_cases hw
      · exact .fork parentId parent hparent rfl ((congrFun hrecord _).trans (Function.update_self ..))
      · exact .kept hw ((congrFun hrecord _).trans (Function.update_of_ne hne ..))
  | commitDraft draft timestamp =>
    obtain rfl := Option.some.inj (WorldStore.commitDraft_state.symm.trans happly)
    cases hparent : s.store.getWorld draft.baseWorldId with
    | none =>
      simp only [hparent] at hw
      exact .kept hw (congrFun (if_neg (by simp [hparent])) id)
    | some parent =>
      simp only [hparent] at hw
      have hrecord : s.record (.commitDraft draft timestamp) = Function.update s.commits s.store.nextWorldId
          (s.commits draft.baseWorldId ++ [draft.stagedObjects]) := if_pos (by simp [hparent])
      obtain ⟨rfl, rfl⟩ | ⟨hne, hw⟩ := WorldStore.getWorld_add_cases hw
      · refine .commit draft.baseWorldId parent draft.stagedObjects hparent rfl
          ((congrFun hrecord _).trans (Function.update_self ..)) fun x hx => ?_
        simp only [Kept.hashes, hparent]
        exact List.mem_append_left _ hx
      · exact .kept hw ((congrFun hrecord _).trans (Function.update_of_ne hne ..))
  | dropWorld worldId =>
    obtain rfl := Option.some.inj happly
    exact .kept (WorldStore.getWorld_dropWorld hw) rfl
  | releaseWorld worldId =>
    obtain rfl := Option.some.inj happly
    exact .kept (WorldStore.getWorld_dropWorld (WorldStore.getWorld_collectGarbage hw)) rfl
  | collectGarbage =>
    obtain rfl := Option.some.inj happly
    exact .kept (WorldStore.getWorld_collectGarbage hw) rfl

/-- Every world's root is computed from its commits, by hashes that were made. -/
def Bound (sha : List UInt8 → Root) (s : Kept) : Prop :=
  ∀ (id : Nat) (w : WorldManifest), s.store.getWorld id = some w →
    Rooted sha {x | x ∈ s.hashed} (s.commits id) w.objectRoot

theorem bound_new : Bound sha .new := by
  intro id w hw
  cases (ExtTreeMap.getElem?_empty (a := id)).symm.trans hw

theorem bound_step {s s' : Kept} {op : Op} (hb : Bound sha s) (h : s.step sha op = some s') : Bound sha s' := by
  have hgrow : {x | x ∈ s.hashed} ⊆ {x | x ∈ s'.hashed} := by
    obtain ⟨store, -, rfl⟩ := Option.map_eq_some_iff.1 h
    intro x hx
    exact List.mem_append_right _ hx
  intro id w hw
  cases Kept.origin h hw with
  | kept hw hcommits => exact hcommits ▸ (hb id w hw).mono hgrow
  | root hroot hcommits => exact hcommits ▸ hroot ▸ .zero
  | fork parentId parent hparent hroot hcommits => exact hcommits ▸ hroot ▸ (hb parentId parent hparent).mono hgrow
  | commit parentId parent o hparent hroot hcommits hhashed =>
    exact hcommits ▸ hroot ▸ .commit ((hb parentId parent hparent).mono hgrow) hhashed

theorem bound_run {ops : List Op} {s : Kept} (h : Machine.run (Kept.step sha) ops .new = some s) : Bound sha s :=
  Machine.run_always (fun _ _ _ hb hs => bound_step hb hs) bound_new h

/-- **An object root binds the whole content of a world.** In any two stores, where the hash has no collision among
what the two have hashed and none of it hashes to zeros, worlds of equal roots go back to equally many commits, of the
same objects. -/
theorem object_root_binds (sha : List UInt8 → Root) {ops₁ ops₂ : List Op} {s₁ s₂ : Kept}
    (h₁ : Machine.run (Kept.step sha) ops₁ .new = some s₁) (h₂ : Machine.run (Kept.step sha) ops₂ .new = some s₂)
    (hinj : Set.InjOn sha {x | x ∈ s₁.hashed ∨ x ∈ s₂.hashed})
    (hzero : ∀ x, x ∈ s₁.hashed ∨ x ∈ s₂.hashed → sha x ≠ zeroRoot) {i j : Nat} {w₁ w₂ : WorldManifest}
    (hw₁ : s₁.store.getWorld i = some w₁) (hw₂ : s₂.store.getWorld j = some w₂)
    (hroot : w₁.objectRoot = w₂.objectRoot) : s₁.commits i = s₂.commits j := by
  have hr₁ := (bound_run h₁ i w₁ hw₁).mono (T := {x | x ∈ s₁.hashed ∨ x ∈ s₂.hashed}) fun _ => Or.inl
  have hr₂ := (bound_run h₂ j w₂ hw₂).mono (T := {x | x ∈ s₁.hashed ∨ x ∈ s₂.hashed}) fun _ => Or.inr
  exact Rooted.commits_eq hinj hzero hr₁ (hroot ▸ hr₂)

end Hash

/-! A commit on a root world and the same commit on a fork of it. The values are SHA-256's. -/

def sampleObjects : Objects := Objects.empty.insert "a" [1] (by decide) (by decide)

def sampleBlob : Root :=
  #v[42, 70, 56, 4, 47, 87, 144, 239, 88, 203, 122, 193, 223, 115, 80, 55, 67, 225, 66, 193, 249, 74, 134, 31,
    100, 139, 240, 238, 226, 242, 179, 224]

def sampleRoot : Root :=
  #v[227, 83, 59, 17, 62, 249, 123, 224, 151, 157, 45, 26, 207, 211, 245, 254, 47, 139, 209, 18, 60, 0, 144, 4,
    172, 85, 148, 151, 82, 134, 72, 135]

def sampleSha (x : List UInt8) : Root :=
  if x = blobBytes ("a", [1]) then sampleBlob
  else if x = zeroRoot.toList ++ sampleBlob.toList then sampleRoot
  else zeroRoot

def sampleDirect : List Op := [.createRootWorld 1 1 1 0, .commitDraft ⟨1, sampleObjects⟩ 1]

def sampleForked : List Op := [.createRootWorld 1 1 1 0, .forkWorld 1 1, .commitDraft ⟨2, sampleObjects⟩ 2]

theorem sample_sorted : sampleObjects.sorted = [("a", [1])] := by decide +kernel

theorem sample_rootBytes : rootBytes sampleSha zeroRoot sampleObjects = zeroRoot.toList ++ sampleBlob.toList := by
  unfold rootBytes
  rw [sample_sorted]
  decide +kernel

theorem sample_hashed : hashedBy sampleSha zeroRoot sampleObjects =
    [zeroRoot.toList ++ sampleBlob.toList, blobBytes ("a", [1])] := by
  unfold hashedBy
  rw [sample_rootBytes, sample_sorted]
  rfl

theorem object_root_binds_sample :
    ∃ (s₁ s₂ : Kept) (w₁ w₂ : WorldManifest), Machine.run (Kept.step sampleSha) sampleDirect .new = some s₁ ∧
      Machine.run (Kept.step sampleSha) sampleForked .new = some s₂ ∧ s₁.store.getWorld 2 = some w₁ ∧
      s₂.store.getWorld 3 = some w₂ ∧ w₁.objectRoot = w₂.objectRoot ∧ s₁.commits 2 = s₂.commits 3 := by
  obtain ⟨s₁, hrun₁, hhashed₁, w₁, hw₁, hroot₁⟩ : ∃ s : Kept,
      Machine.run (Kept.step sampleSha) sampleDirect .new = some s ∧
        s.hashed = hashedBy sampleSha zeroRoot sampleObjects ++ [] ∧ ∃ w, s.store.getWorld 2 = some w ∧
          w.objectRoot = commitRoot sampleSha zeroRoot sampleObjects := ⟨_, rfl, rfl, _, rfl, rfl⟩
  obtain ⟨s₂, hrun₂, hhashed₂, w₂, hw₂, hroot₂⟩ : ∃ s : Kept,
      Machine.run (Kept.step sampleSha) sampleForked .new = some s ∧
        s.hashed = hashedBy sampleSha zeroRoot sampleObjects ++ [] ∧ ∃ w, s.store.getWorld 3 = some w ∧
          w.objectRoot = commitRoot sampleSha zeroRoot sampleObjects := ⟨_, rfl, rfl, _, rfl, rfl⟩
  have hmem : ∀ x, x ∈ s₁.hashed ∨ x ∈ s₂.hashed →
      x = zeroRoot.toList ++ sampleBlob.toList ∨ x = blobBytes ("a", [1]) := by
    intro x hx
    rw [hhashed₁, hhashed₂, or_self, List.append_nil, sample_hashed] at hx
    simpa using hx
  have hroot : sampleSha (zeroRoot.toList ++ sampleBlob.toList) = sampleRoot := by decide +kernel
  have hblob : sampleSha (blobBytes ("a", [1])) = sampleBlob := by decide +kernel
  have hinj : Set.InjOn sampleSha {x | x ∈ s₁.hashed ∨ x ∈ s₂.hashed} := by
    intro x hx y hy he
    obtain rfl | rfl := hmem x hx
    · obtain rfl | rfl := hmem y hy
      · rfl
      · rw [hroot, hblob] at he
        exact absurd he (by decide +kernel)
    · obtain rfl | rfl := hmem y hy
      · rw [hroot, hblob] at he
        exact absurd he (by decide +kernel)
      · rfl
  have hzero : ∀ x, x ∈ s₁.hashed ∨ x ∈ s₂.hashed → sampleSha x ≠ zeroRoot := by
    intro x hx
    obtain rfl | rfl := hmem x hx
    · rw [hroot]
      decide +kernel
    · rw [hblob]
      decide +kernel
  have heq : w₁.objectRoot = w₂.objectRoot := hroot₁.trans hroot₂.symm
  exact ⟨s₁, s₂, w₁, w₂, hrun₁, hrun₂, hw₁, hw₂, heq,
    object_root_binds sampleSha hrun₁ hrun₂ hinj hzero hw₁ hw₂ heq⟩

end SovereignCore.Runtime
