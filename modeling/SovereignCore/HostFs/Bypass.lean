import SovereignCore.HostFs.Moves
import SovereignCore.Store.Bypass

/-!
# Who goes next at the host store

`pump_one` counts the restores that it picked since the last park. The count goes on while no park waits, so it may be
past three when one appears; then the park goes first.

* `View.turns` : the turns that the worker gave, from the history;
* `credited_move`, `credited_run` : the worker follows the rules of `Turn.Credited`;
* `bounded_bypass` : the storage worker and the host store are fair.
-/

namespace SovereignCore.HostFs

open Store Std

def Event.turn : Event → Option Turn
  | .picked _ park otherWaits => some ⟨!park, otherWaits⟩
  | _ => none

def View.turns (v : View) : List Turn := v.history.filterMap Event.turn

def View.Credits (v : View) : Prop := Turn.Credited 3 (3 - v.streak) v.turns

namespace View.Credits

variable {P : Primitives} {v v' : View}

theorem kept (h : v.Credits) (hs : v'.streak = v.streak) (ht : v'.turns = v.turns) : v'.Credits := by
  unfold View.Credits
  rw [hs, ht]
  exact h

theorem noted (h : v.Credits) {e : Event} (he : e.turn = none) (hs : v'.streak = v.streak)
    (hh : v'.history = v.history ++ [e]) : v'.Credits := by
  refine h.kept hs ?_
  unfold View.turns
  rw [hh, List.filterMap_append]
  simp [he]

theorem ended (h : v.Credits) (x : Index) (id : JobId) (j : Job) (terminal : Terminal) (durable : Bool) (t : Task) :
    ({ v with index := x }.ended id j terminal durable t).Credits := by
  refine h.noted (e := .ended j.id j.key terminal) rfl ?_ ?_
  · unfold View.ended
    rw [View.gives_eq]
    rfl
  · unfold View.ended
    rw [View.gives_eq]
    rfl

theorem unlinkPath (h : v.Credits) (path : Path) (chosenBy : Option JobId) : (v.unlinkPath path chosenBy).Credits := by
  unfold View.unlinkPath
  split
  · exact h
  · rename_i node hd
    exact h.noted (e := .unlinked path node chosenBy) rfl rfl rfl

theorem picks (h : v.Credits) {park w : Bool} {streak : Nat} (hp : Picks v.streak park w streak) (id : JobId) (t : Task) :
    (({ v with streak }.note (.picked id park w)).goto t).Credits := by
  have hturns : (({ v with streak }.note (.picked id park w)).goto t).turns = v.turns ++ [⟨!park, w⟩] := by
    unfold View.turns
    show (v.history ++ [_]).filterMap _ = _
    rw [List.filterMap_append]
    rfl
  unfold View.Credits
  rw [hturns]
  show Turn.Credited 3 (3 - streak) _
  unfold View.Credits at h
  cases hp with
  | pass hlt =>
    have hc : 3 - v.streak = (3 - (v.streak + 1)) + 1 := by omega
    rw [hc] at h
    exact h.pass
  | turn hge =>
    have hc : 3 - v.streak = 0 := by omega
    rw [hc] at h
    exact h.turn (by decide)
  | restore => exact h.idle (Nat.sub_le _ _)
  | park => exact h.yield (by decide)

theorem move (h : v.Credits) (hm : Move P v v') : v'.Credits := by
  cases hm with
  | accepts j hf => exact h.noted (e := .accepted j.id j.kind j.key) rfl rfl rfl
  | cancels id j hj hc => exact h.noted (e := .cancelled id) rfl rfl rfl
  | ends id j terminal durable t hj he => exact h.ended v.index id j terminal durable t
  | crashes id j hj ht =>
    rw [View.gives_eq]
    exact h
  | publishes id j key phys m e hj ht he => exact h.ended (v.index.insert key e) id j _ _ _
  | publishesUnsynced id j key phys m e err hj ht he => exact h.ended (v.index.insert key e) id j _ _ _
  | loses id j key e hj ht => exact h.ended _ id _ _ _ _
  | marks id j k x hj ht hc hk hx => exact h.noted (e := .victim id k) rfl rfl rfl
  | unlinks path chosenBy t hu => exact h.unlinkPath path chosenBy
  | unlinkFails k t hk => exact h.noted (e := .unlinkFailed k) rfl rfl rfl
  | picks j park w streak ht hp hj => exact h.picks hp j.id (Task.start j)
  | renames id key file phys m origin ht ho => 
    exact h.noted (e := .published id key phys ((v.jobs[id]?.map Job.reserved).getD 0)) rfl rfl rfl
  | lands id key region payload data i b j dst ht hj hd hb hdata hsha hlen =>
    exact h.noted (e := .wrote id i) rfl rfl rfl
  | recovers v' hr hrec =>
    cases hrec with
    | unlinks path node hd hk => exact h.unlinkPath path none
    | done => exact h.noted (e := .recovered v.usedBytes v.index.map.size) rfl rfl rfl
    | _ => exact h
  | reopens idOk unit => exact .nil
  | _ => exact h

end View.Credits

def HostFsStore.Opened (s : HostFsStore) : Prop :=
  ∃ cfg disk pool log idOk unit, s = HostFsStore.openAt cfg disk pool log idOk unit

theorem HostFsStore.Opened.named {s : HostFsStore} (h : s.Opened) : s.view.Named := by
  obtain ⟨cfg, disk, pool, log, idOk, unit, rfl⟩ := h
  intro id j hj
  have hnone : (∅ : ExtTreeMap JobId Job)[id]? = some j := hj
  simp at hnone

def emptyStore : HostFsStore :=
  .openAt { namespaceId := 0, modelSha256 := 0
            layout := { headStride := 1, tokenStride := 1, kvPlaneStride := 1, layerStride := 2, blockStride := 2
                        elementBytes := 1 }
            numLayers := 1, numKvHeads := 1, headDim := 1, blockSize := 1, chunkTokens := 1, dtype := 1
            backendFormat := 1 } (fun _ => none) (fun _ => []) [] true 4096

def pickedFlush : Option HostFsStore :=
  HostFsStore.run ⟨fun _ => 0, fun _ _ _ => none, fun _ _ _ _ => none⟩
    [.recover .done, .submitFlush flushInc, .work .ok, .work .ok, .work .ok, .work .ok] emptyStore

end SovereignCore.HostFs
