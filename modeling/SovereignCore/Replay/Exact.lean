import SovereignCore.Replay.Transcript

/-!
# What an accepted transcript says

An accepted transcript is its header and a list of framed records, each with its number and the digest of the record
before, the last of them the only END record. So the final digest stands for every byte, and the compared digests for
the events.

* `frames`, `events` : the cuts of a transcript, and its (type, subsystem, identity) triples;
* `Linked`, `records_accept` : the shape of what `verify` accepts;
* `transcript_committed` : one final digest, one transcript;
* `compare_line_exact` : the comparison reports the first difference.
-/

namespace SovereignCore.Replay

open Hex

def cut : Nat → List UInt8 → List (List UInt8)
  | 0, _ => []
  | n + 1, r =>
    if r = [] then []
    else
      let len := recordHeaderLen + u32le (r.drop 4) + u32le (r.drop 8)
      r.take len :: cut n (r.drop len)

def recordsOf (b : List UInt8) : List (List UInt8) := cut maxRecords (b.drop headerLen)

def frames (b : List UInt8) : List (List UInt8) := b.take headerLen :: recordsOf b

def identOf (x : List UInt8) : List UInt8 := slice x recordHeaderLen (recordHeaderLen + u32le (x.drop 4))

def eventOf (x : List UInt8) : Nat × Nat × List UInt8 := (u16le x, u16le (x.drop 2), identOf x)

def events (b : List UInt8) : List (Nat × Nat × List UInt8) := (recordsOf b).map eventOf

def compareOf (x : List UInt8) : List UInt8 := comparedBytes x (identOf x)

/-! ## Slices -/

section Slices

variable {b : List UInt8} {i j n : Nat}

theorem slice_take (h : j ≤ n) : slice (b.take n) i j = slice b i j := by
  unfold slice
  rw [List.drop_take, List.take_take, Nat.min_eq_left (by omega)]

theorem length_slice (hij : i ≤ j) (h : j ≤ b.length) : (slice b i j).length = j - i := by
  unfold slice
  rw [List.length_take, List.length_drop]
  omega

theorem u16le_drop : u16le (b.drop i) = leValue (slice b i (i + 2)) := by
  unfold u16le slice
  rw [Nat.add_sub_cancel_left]

theorem u32le_drop : u32le (b.drop i) = leValue (slice b i (i + 4)) := by
  unfold u32le slice
  rw [Nat.add_sub_cancel_left]

theorem u64le_drop : u64le (b.drop i) = leValue (slice b i (i + 8)) := by
  unfold u64le slice
  rw [Nat.add_sub_cancel_left]

theorem u16le_take (h : 2 ≤ n) : u16le (b.take n) = u16le b := by
  unfold u16le
  rw [List.take_take, Nat.min_eq_left h]

theorem u16le_drop_take (h : i + 2 ≤ n) : u16le ((b.take n).drop i) = u16le (b.drop i) := by
  rw [u16le_drop, u16le_drop, slice_take h]

theorem u32le_drop_take (h : i + 4 ≤ n) : u32le ((b.take n).drop i) = u32le (b.drop i) := by
  rw [u32le_drop, u32le_drop, slice_take h]

theorem u64le_drop_take (h : i + 8 ≤ n) : u64le ((b.take n).drop i) = u64le (b.drop i) := by
  rw [u64le_drop, u64le_drop, slice_take h]

end Slices

@[simp] theorem refuseIf_ok {p : Prop} [Decidable p] {code : Code} {k : Nat} {u : Unit} :
    refuseIf p code k = .ok u ↔ ¬ p := by
  unfold refuseIf
  by_cases h : p
  · simp [h]
  · simp [h]

/-! ## The shape of an accepted transcript -/

variable {sha : List UInt8 → Hash}

/-- A record that is framed as number `k` after the digest `prev`. -/
structure Framed (k : Nat) (prev : Hash) (x : List UInt8) : Prop where
  length : x.length = recordHeaderLen + u32le (x.drop 4) + u32le (x.drop 8)
  seq : u64le (x.drop 16) = k
  prev : slice x 24 56 = prev.toList

variable {k : Nat} {prev : Hash} {argus : Option (List UInt8)} {r x y : List UInt8} {c : Checked}

theorem Framed.long (h : Framed k prev x) : 56 ≤ x.length := by
  rw [h.length]
  unfold recordHeaderLen
  omega

theorem checkRecord_ok (h : checkRecord sha k prev argus r = .ok c) :
    r ≠ [] ∧ Framed k prev c.bytes ∧ r = c.bytes ++ r.drop c.bytes.length ∧ c.type = u16le c.bytes ∧
      c.subsystem = u16le (c.bytes.drop 2) ∧ c.ident = identOf c.bytes ∧
      c.bytes.length = recordHeaderLen + u32le (r.drop 4) + u32le (r.drop 8) := by
  unfold checkRecord at h
  simp only [Result.bind_ok, refuseIf_ok] at h
  obtain ⟨_, hne, _, hlen, h⟩ := h
  split at h
  · cases h
  · simp only [Result.bind_ok, refuseIf_ok] at h
    obtain ⟨_, -, _, -, _, -, _, hseq, _, hprev, _, hbody, _, -, _, -, _, -, _, -, _, -, _, -, _, -, _, -, _, -, _, -,
      a, -, h⟩ := h
    cases h
    simp only [not_not] at hseq hprev
    have h56 : recordHeaderLen = 56 := rfl
    have hle : recordHeaderLen + u32le (r.drop 4) + u32le (r.drop 8) ≤ r.length := by omega
    have hi : u32le ((r.take (recordHeaderLen + u32le (r.drop 4) + u32le (r.drop 8))).drop 4) = u32le (r.drop 4) :=
      u32le_drop_take (by omega)
    have ha : u32le ((r.take (recordHeaderLen + u32le (r.drop 4) + u32le (r.drop 8))).drop 8) = u32le (r.drop 8) :=
      u32le_drop_take (by omega)
    have hlength : (r.take (recordHeaderLen + u32le (r.drop 4) + u32le (r.drop 8))).length =
        recordHeaderLen + u32le (r.drop 4) + u32le (r.drop 8) := by
      rw [List.length_take, Nat.min_eq_left hle]
    refine ⟨hne, ⟨?_, ?_, ?_⟩, ?_, ?_, ?_, ?_, hlength⟩
    · rw [hi, ha, hlength]
    · exact (u64le_drop_take (by omega)).trans hseq
    · exact (slice_take (by omega)).trans hprev
    · show r = r.take _ ++ r.drop (r.take _).length
      rw [hlength, List.take_append_drop]
    · exact (u16le_take (by omega)).symm
    · exact (u16le_drop_take (by omega)).symm
    · show slice r _ _ = identOf (r.take _)
      unfold identOf
      rw [hi, slice_take (by omega)]

/-- The records in order, each with its number and the digest before; `d` is the digest of the last. -/
def Linked (sha : List UInt8 → Hash) : Nat → Hash → List (List UInt8) → Hash → Prop
  | _, prev, [], d => d = prev
  | k, prev, x :: xs, d => Framed k prev x ∧ Linked sha (k + 1) (sha x) xs d

def EndsOnce : List (List UInt8) → Prop
  | [] => False
  | [x] => u16le x = tEnd
  | x :: xs => u16le x ≠ tEnd ∧ EndsOnce xs

theorem records_accept {runId : List UInt8} {left : Nat} {compared : List (Hash × Nat)} {v : Accepted}
    (h : records sha runId left k prev compared argus r = .accept v) :
    Linked sha k prev (cut left r) v.finalDigest ∧ EndsOnce (cut left r) ∧ (cut left r).flatten = r ∧
      v.compared = compared ++ (cut left r).map (fun x => (sha (compareOf x), u16le (x.drop 2))) ∧
      v.records + 1 = k + (cut left r).length := by
  induction left generalizing k prev compared argus r with
  | zero =>
    unfold records at h
    split_ifs at h
  | succ left ih =>
    unfold records at h
    cases hc : checkRecord sha k prev argus r with
    | error e =>
      rw [hc] at h
      cases h
    | ok c =>
      rw [hc] at h
      dsimp only at h
      obtain ⟨hne, hframed, hr, htype, hsub, hid, hlen⟩ := checkRecord_ok hc
      have hcut : cut (left + 1) r = c.bytes :: cut left (r.drop c.bytes.length) := by
        rw [cut, if_neg hne]
        dsimp only
        rw [← hlen]
        congr 1
        nth_rewrite 1 [hr]
        rw [List.take_left' rfl]
      have hcmp : (sha (comparedBytes c.bytes c.ident), c.subsystem) =
          (sha (compareOf c.bytes), u16le (c.bytes.drop 2)) := by
        unfold compareOf
        rw [hid, hsub]
      rw [hcut]
      split_ifs at h with ht hgap hrest
      · -- END: nothing follows
        cases h
        have hnil : r.drop c.bytes.length = [] := not_not.1 hrest
        have hstop : cut left (r.drop c.bytes.length) = [] := by
          rw [hnil]
          cases left with
          | zero => rfl
          | succ n => rfl
        rw [hstop]
        refine ⟨⟨hframed, rfl⟩, htype.symm.trans ht, ?_, ?_, rfl⟩
        · rw [hnil, List.append_nil] at hr
          simpa using hr.symm
        · rw [hcmp]
          rfl
      · obtain ⟨hlink, hend, hflat, hcompared, hcount⟩ := ih h
        refine ⟨⟨hframed, hlink⟩, ?_, ?_, ?_, ?_⟩
        · cases hrec : cut left (r.drop c.bytes.length) with
          | nil =>
            rw [hrec] at hend
            exact absurd hend id
          | cons z zs =>
            rw [hrec] at hend
            exact ⟨fun he => ht (htype.trans he), hend⟩
        · rw [List.flatten_cons, hflat]
          exact hr.symm
        · rw [hcompared, hcmp, List.append_assoc]
          rfl
        · rw [List.length_cons]
          omega

theorem verify_accept {b : List UInt8} {v : Accepted} (h : verify sha b = .accept v) :
    headerLen ≤ b.length ∧ Linked sha 1 (sha (b.take headerLen)) (recordsOf b) v.finalDigest ∧ EndsOnce (recordsOf b) ∧
      (recordsOf b).flatten = b.drop headerLen ∧
      v.compared = (recordsOf b).map (fun x => (sha (compareOf x), u16le (x.drop 2))) ∧
      v.records = (recordsOf b).length := by
  unfold verify at h
  cases hc : checkHeader b with
  | error e =>
    rw [hc] at h
    cases h
  | ok u =>
    rw [hc] at h
    dsimp only at h
    obtain ⟨hlink, hend, hflat, hcompared, hcount⟩ := records_accept h
    unfold checkHeader at hc
    simp only [Result.bind_ok, refuseIf_ok] at hc
    obtain ⟨_, -, _, -, _, -, _, -, _, hlen, -⟩ := hc
    refine ⟨by omega, hlink, hend, hflat, hcompared, ?_⟩
    unfold recordsOf
    omega

variable {xs ys : List (List UInt8)} {d : Hash} {q : Hash} {j : Nat}

theorem Linked.get (h : Linked sha k prev xs d) (hj : xs[j]? = some x) : ∃ q, Framed (k + j) q x := by
  induction xs generalizing k prev j with
  | nil => cases hj
  | cons z zs ih =>
    obtain ⟨hz, hzs⟩ := h
    cases j with
    | zero =>
      cases hj
      exact ⟨prev, hz⟩
    | succ j =>
      obtain ⟨q, hq⟩ := ih hzs hj
      refine ⟨q, ?_⟩
      rw [show k + (j + 1) = k + 1 + j by omega]
      exact hq

theorem Linked.last (h : Linked sha k prev xs d) (hj : xs[j]? = some x) (hl : j + 1 = xs.length) : d = sha x := by
  induction xs generalizing k prev j with
  | nil => cases hj
  | cons z zs ih =>
    obtain ⟨-, hzs⟩ := h
    rw [List.length_cons] at hl
    cases j with
    | zero =>
      have hnil : zs = [] := List.length_eq_zero_iff.1 (by omega)
      cases hj
      rw [hnil] at hzs
      exact hzs
    | succ j => exact ih hzs hj (by omega)

theorem EndsOnce.get (h : EndsOnce xs) (hj : xs[j]? = some x) : u16le x = tEnd ↔ j + 1 = xs.length := by
  induction xs generalizing j with
  | nil => exact absurd h id
  | cons z zs ih =>
    cases zs with
    | nil =>
      cases j with
      | zero =>
        cases hj
        exact ⟨fun _ => rfl, fun _ => h⟩
      | succ j => cases hj
    | cons w ws =>
      obtain ⟨hz, hzs⟩ := h
      cases j with
      | zero =>
        cases hj
        exact ⟨fun he => absurd he hz, fun he => by simp at he⟩
      | succ j =>
        rw [ih hzs hj, List.length_cons (a := z)]
        omega

theorem EndsOnce.exists_last (h : EndsOnce xs) : ∃ j x, xs[j]? = some x ∧ j + 1 = xs.length := by
  have hpos : 0 < xs.length := by
    apply List.length_pos_iff.2
    intro hnil
    rw [hnil] at h
    exact h
  exact ⟨xs.length - 1, xs[xs.length - 1], List.getElem?_eq_getElem (by omega), by omega⟩

/-! ## One final digest, one transcript -/

theorem Linked.commit {S : Set (List UInt8)} (hinj : Set.InjOn sha S) (hx : Linked sha k prev xs d)
    (hy : Linked sha k q ys d) (hlen : xs.length = ys.length) (hxs : ∀ x ∈ xs, x ∈ S) (hys : ∀ y ∈ ys, y ∈ S) :
    xs = ys ∧ prev = q := by
  -- from the last record back: equal digests give equal records, whose digest fields are equal
  induction xs generalizing k prev q ys with
  | nil =>
    have hnil : ys = [] := List.length_eq_zero_iff.1 hlen.symm
    rw [hnil] at hy ⊢
    exact ⟨rfl, Eq.trans (Eq.symm hx) hy⟩
  | cons x xs ih =>
    cases ys with
    | nil => cases hlen
    | cons y ys =>
      obtain ⟨hfx, hx⟩ := hx
      obtain ⟨hfy, hy⟩ := hy
      obtain ⟨hrest, hdigest⟩ := ih hx hy (Nat.succ.inj hlen) (fun z hz => hxs z (List.mem_cons_of_mem x hz))
        (fun z hz => hys z (List.mem_cons_of_mem y hz))
      have hxy : x = y := hinj (hxs x List.mem_cons_self) (hys y List.mem_cons_self) hdigest
      rw [hrest, hxy]
      refine ⟨rfl, Vector.toList_inj.1 ?_⟩
      rw [← hfx.prev, ← hfy.prev, hxy]

/-- The final digest of an accepted transcript stands for its number of records. -/
theorem length_recordsOf_eq {a b : List UInt8} {va vb : Accepted} (ha : verify sha a = .accept va)
    (hb : verify sha b = .accept vb) (hd : va.finalDigest = vb.finalDigest)
    (hinj : Set.InjOn sha {x | x ∈ frames a ∨ x ∈ frames b}) : (recordsOf a).length = (recordsOf b).length := by
  obtain ⟨-, hla, hea, -, -, -⟩ := verify_accept ha
  obtain ⟨-, hlb, heb, -, -, -⟩ := verify_accept hb
  obtain ⟨i, x, hi, hin⟩ := hea.exists_last
  obtain ⟨j, y, hj, hjn⟩ := heb.exists_last
  have hxy : x = y := by
    apply hinj (Or.inl (List.mem_cons_of_mem _ (List.mem_of_getElem? hi)))
      (Or.inr (List.mem_cons_of_mem _ (List.mem_of_getElem? hj)))
    rw [← hla.last hi hin, ← hlb.last hj hjn, hd]
  obtain ⟨p, hp⟩ := hla.get hi
  obtain ⟨q, hq⟩ := hlb.get hj
  have hseq : 1 + i = 1 + j := by rw [← hp.seq, ← hq.seq, hxy]
  omega

/-- Two accepted transcripts with the same final digest are the same bytes, where the hash function has no collision
among the headers and records of the two. -/
theorem transcript_committed {a b : List UInt8} {va vb : Accepted} (ha : verify sha a = .accept va)
    (hb : verify sha b = .accept vb) (hd : va.finalDigest = vb.finalDigest)
    (hinj : Set.InjOn sha {x | x ∈ frames a ∨ x ∈ frames b}) : a = b := by
  have hlen := length_recordsOf_eq ha hb hd hinj
  obtain ⟨-, hla, -, hfa, -, -⟩ := verify_accept ha
  obtain ⟨-, hlb, -, hfb, -, -⟩ := verify_accept hb
  rw [hd] at hla
  obtain ⟨hrec, hstart⟩ := hla.commit hinj hlb hlen (fun x hx => Or.inl (List.mem_cons_of_mem _ hx))
    (fun x hx => Or.inr (List.mem_cons_of_mem _ hx))
  have hhead : a.take headerLen = b.take headerLen :=
    hinj (Or.inl List.mem_cons_self) (Or.inr List.mem_cons_self) hstart
  calc a = a.take headerLen ++ a.drop headerLen := (List.take_append_drop _ _).symm
    _ = b.take headerLen ++ b.drop headerLen := by rw [hhead, ← hfa, hrec, hfb]
    _ = b := List.take_append_drop _ _

/-! Two transcripts of one record and the END record. The values are SHA-256's. -/

def sampleHeader : List UInt8 :=
  [84, 82, 78, 49, 1, 0, 0, 0] ++ List.replicate 32 0 ++ [7, 0, 0, 0, 0, 0, 0, 0]

def sampleRecord (n : UInt8) (prev : Hash) : List UInt8 :=
  [2, 0, 7, 0, 24, 0, 0, 0, 0, 0, 0, 0, 0, 0, 0, 0, 1, 0, 0, 0, 0, 0, 0, 0] ++ prev.toList ++ n :: List.replicate 23 0

def sampleEnd (prev : Hash) : List UInt8 :=
  [255, 255, 0, 0, 16, 0, 0, 0, 0, 0, 0, 0, 0, 0, 0, 0, 2, 0, 0, 0, 0, 0, 0, 0] ++ prev.toList ++
    2 :: List.replicate 15 0

def sampleStart : Hash :=
  #v[141, 217, 55, 13, 97, 70, 66, 182, 0, 165, 71, 120, 90, 122, 252, 196, 46, 87, 176, 196, 38, 136, 217, 75,
    10, 210, 205, 191, 225, 90, 59, 147]

def sampleOne : Hash :=
  #v[141, 208, 154, 26, 203, 131, 124, 191, 191, 252, 23, 43, 252, 32, 39, 6, 206, 86, 45, 98, 99, 174, 198, 196,
    18, 252, 126, 83, 66, 133, 4, 178]

def sampleOneEnd : Hash :=
  #v[46, 113, 126, 22, 74, 209, 35, 131, 248, 35, 66, 50, 94, 30, 62, 84, 253, 58, 177, 1, 87, 136, 167, 25,
    207, 98, 228, 21, 192, 117, 28, 61]

def sampleTwo : Hash :=
  #v[120, 46, 58, 20, 221, 215, 117, 25, 18, 177, 112, 23, 192, 81, 236, 173, 133, 222, 107, 248, 225, 95, 8, 214,
    97, 5, 226, 159, 198, 203, 69, 226]

def sampleTwoEnd : Hash :=
  #v[59, 85, 158, 230, 57, 141, 124, 146, 46, 23, 215, 84, 23, 216, 50, 26, 14, 100, 163, 139, 215, 95, 113, 154,
    241, 185, 105, 17, 121, 254, 200, 21]

def sampleOneCompared : Hash :=
  #v[55, 115, 124, 3, 112, 160, 128, 123, 54, 201, 49, 97, 111, 189, 113, 87, 225, 232, 104, 177, 236, 246, 221, 58,
    123, 37, 176, 114, 157, 247, 15, 191]

def sampleTwoCompared : Hash :=
  #v[19, 4, 20, 128, 116, 193, 102, 55, 151, 122, 220, 189, 0, 90, 87, 60, 49, 89, 14, 34, 185, 35, 207, 213,
    41, 80, 230, 152, 40, 90, 217, 15]

def sampleEndCompared : Hash :=
  #v[209, 232, 29, 109, 133, 205, 84, 234, 207, 143, 168, 60, 149, 80, 96, 226, 220, 33, 0, 103, 131, 119, 9, 67,
    45, 80, 183, 54, 213, 140, 64, 231]

def sampleSha (x : List UInt8) : Hash :=
  if x = sampleHeader then sampleStart
  else if x = sampleRecord 1 sampleStart then sampleOne
  else if x = sampleEnd sampleOne then sampleOneEnd
  else if x = sampleRecord 2 sampleStart then sampleTwo
  else if x = sampleEnd sampleTwo then sampleTwoEnd
  else if x = compareOf (sampleRecord 1 sampleStart) then sampleOneCompared
  else if x = compareOf (sampleRecord 2 sampleStart) then sampleTwoCompared
  else if x = compareOf (sampleEnd sampleOne) then sampleEndCompared
  else .replicate 32 0

def sampleFirst : List UInt8 := sampleHeader ++ sampleRecord 1 sampleStart ++ sampleEnd sampleOne

def sampleSecond : List UInt8 := sampleHeader ++ sampleRecord 2 sampleStart ++ sampleEnd sampleTwo

theorem verify_sampleFirst : verify sampleSha sampleFirst =
    .accept ⟨2, List.replicate 32 0, sampleOneEnd, [(sampleOneCompared, 7), (sampleEndCompared, 0)]⟩ := by
  decide +kernel

theorem verify_sampleSecond : verify sampleSha sampleSecond =
    .accept ⟨2, List.replicate 32 0, sampleTwoEnd, [(sampleTwoCompared, 7), (sampleEndCompared, 0)]⟩ := by
  decide +kernel

theorem transcript_committed_sample :
    (∃ v, verify sampleSha sampleFirst = .accept v) ∧ sampleFirst = sampleFirst := by
  have hinj : Set.InjOn sampleSha {x | x ∈ frames sampleFirst ∨ x ∈ frames sampleFirst} := by
    have hall : ∀ x ∈ frames sampleFirst, ∀ y ∈ frames sampleFirst, sampleSha x = sampleSha y → x = y := by
      decide
    intro x hx y hy
    exact hall x (or_self_iff.1 hx) y (or_self_iff.1 hy)
  exact ⟨⟨_, verify_sampleFirst⟩, transcript_committed verify_sampleFirst verify_sampleFirst rfl hinj⟩

/-! ## The first difference -/

theorem Framed.length_identOf (h : Framed k prev x) : (identOf x).length = leValue (slice x 4 8) := by
  have hl := h.length
  unfold identOf
  rw [length_slice (by omega) (by omega), Nat.add_sub_cancel_left, u32le_drop]

theorem slice_eq_of_leValue {i j : Nat} (hij : i ≤ j) (hx : j ≤ x.length) (hy : j ≤ y.length)
    (h : leValue (slice x i j) = leValue (slice y i j)) : slice x i j = slice y i j := by
  apply leValue_inj _ h
  rw [length_slice hij hx, length_slice hij hy]

theorem slice_append {i m j : Nat} (him : i ≤ m) (hmj : m ≤ j) : slice x i j = slice x i m ++ slice x m j := by
  unfold slice
  rw [show j - i = (m - i) + (j - m) by omega, List.take_add, List.drop_drop, show i + (m - i) = m by omega]

/-- Two records of one number have the same compared bytes exactly when they are the same event. -/
theorem compareOf_inj (hx : Framed k prev x) (hy : Framed k q y) :
    compareOf x = compareOf y ↔ eventOf x = eventOf y := by
  have hxl := hx.long
  have hyl := hy.long
  have hlen : ∀ i j, i ≤ j → j ≤ 56 → (slice x i j).length = (slice y i j).length := by
    intro i j hij hj
    rw [length_slice hij (by omega), length_slice hij (by omega)]
  constructor
  · intro h
    unfold compareOf comparedBytes at h
    have h := List.append_cancel_left h
    obtain ⟨htag, h⟩ := List.append_inj h (hlen 0 4 (by omega) (by omega))
    obtain ⟨-, h⟩ := List.append_inj h (hlen 16 24 (by omega) (by omega))
    obtain ⟨-, hid⟩ := List.append_inj h (hlen 4 8 (by omega) (by omega))
    rw [slice_append (m := 2) (by omega) (by omega), slice_append (x := y) (m := 2) (by omega) (by omega)] at htag
    obtain ⟨htype, hsub⟩ := List.append_inj htag (hlen 0 2 (by omega) (by omega))
    unfold eventOf
    rw [hid, u16le_drop, u16le_drop, hsub]
    exact congrArg (fun s => (leValue s, _)) htype
  · intro h
    obtain ⟨htype, h⟩ := Prod.mk.inj h
    obtain ⟨hsub, hid⟩ := Prod.mk.inj h
    have h02 : slice x 0 2 = slice y 0 2 := slice_eq_of_leValue (by omega) (by omega) (by omega) htype
    rw [u16le_drop, u16le_drop] at hsub
    have h24 : slice x 2 4 = slice y 2 4 := slice_eq_of_leValue (by omega) (by omega) (by omega) hsub
    have h48 : slice x 4 8 = slice y 4 8 := by
      apply slice_eq_of_leValue (by omega) (by omega) (by omega)
      rw [← hx.length_identOf, ← hy.length_identOf, hid]
    have hseq : slice x 16 24 = slice y 16 24 := by
      apply slice_eq_of_leValue (by omega) (by omega) (by omega)
      exact (u64le_drop.symm.trans hx.seq).trans (u64le_drop.symm.trans hy.seq).symm
    have h04 : slice x 0 4 = slice y 0 4 := by
      rw [slice_append (m := 2) (by omega) (by omega), h02, h24, ← slice_append (by omega) (by omega)]
    unfold compareOf comparedBytes
    rw [h04, hseq, h48, hid]

/-- The first difference of two lists of digests, or that there is none as far as both go. -/
theorem firstDifference_spec (i : Nat) (es fs : List (Hash × Nat)) :
    (firstDifference i es fs = none ∧ ∀ (j : Nat) (e f : Hash × Nat), es[j]? = some e → fs[j]? = some f → e.1 = f.1) ∨
      ∃ (j : Nat) (e f : Hash × Nat), es[j]? = some e ∧ fs[j]? = some f ∧ e.1 ≠ f.1 ∧
        (∀ m, m < j → ∀ e f : Hash × Nat, es[m]? = some e → fs[m]? = some f → e.1 = f.1) ∧
        firstDifference i es fs = some (divergenceLine (i + j + 1) e.1 f.1 e.2) := by
  induction es generalizing i fs with
  | nil =>
    left
    exact ⟨by unfold firstDifference; rfl, fun j e f he _ => by cases he⟩
  | cons e es ih =>
    cases fs with
    | nil =>
      left
      exact ⟨by unfold firstDifference; rfl, fun j e f _ hf => by cases hf⟩
    | cons f fs =>
      unfold firstDifference
      by_cases hd : e.1 = f.1
      · rw [if_neg (not_not.2 hd)]
        obtain ⟨hnone, hsame⟩ | ⟨j, e', f', he, hf, hne, hbelow, hline⟩ := ih (i + 1) fs
        · left
          refine ⟨hnone, ?_⟩
          intro j e' f' he hf
          cases j with
          | zero =>
            cases he
            cases hf
            exact hd
          | succ j => exact hsame j e' f' he hf
        · right
          refine ⟨j + 1, e', f', he, hf, hne, ?_, ?_⟩
          · intro m hm e'' f'' he hf
            cases m with
            | zero =>
              cases he
              cases hf
              exact hd
            | succ m => exact hbelow m (by omega) e'' f'' he hf
          · rw [hline, show i + 1 + j + 1 = i + (j + 1) + 1 by omega]
      · right
        refine ⟨0, e, f, rfl, rfl, hd, fun m hm => absurd hm (Nat.not_lt_zero m), ?_⟩
        rw [if_pos hd]

theorem matchLine_ne_divergenceLine (n event subsystem : Nat) (expected actual : Hash) :
    matchLine n ≠ divergenceLine event expected actual subsystem := by
  unfold matchLine divergenceLine
  generalize hexText expected.toList = e
  generalize hexText actual.toList = f
  intro h
  have hm : (toString "MATCH through ").toList.head? = some 'M' := rfl
  have hd : (toString "DIVERGENCE event=").toList.head? = some 'D' := rfl
  have hhead := congrArg (fun s => s.toList.head?) h
  simp [hm, hd] at hhead

/-- Lists of records that end once and agree as far as both go have one length. -/
theorem EndsOnce.length_eq (hx : EndsOnce xs) (hy : EndsOnce ys)
    (h : ∀ (j : Nat) (x y : List UInt8), xs[j]? = some x → ys[j]? = some y → eventOf x = eventOf y) : xs.length = ys.length := by
  obtain ⟨i, x, hi, hin⟩ := hx.exists_last
  obtain ⟨j, y, hj, hjn⟩ := hy.exists_last
  obtain hle | hle := Nat.le_total xs.length ys.length
  · have hy' : ys[i]? = some ys[i] := List.getElem?_eq_getElem (by omega)
    have he : u16le x = u16le ys[i] := congrArg Prod.fst (h i x _ hi hy')
    rw [← hin, ← (hy.get hy').1 (he.symm.trans ((hx.get hi).2 hin))]
  · have hx' : xs[j]? = some xs[j] := List.getElem?_eq_getElem (by omega)
    have he : u16le xs[j] = u16le y := congrArg Prod.fst (h j _ y hx' hj)
    rw [← hjn, ← (hx.get hx').1 (he.trans ((hy.get hj).2 hjn))]

theorem get_events {b : List UInt8} {j : Nat} : (events b)[j]? = (recordsOf b)[j]?.map eventOf :=
  List.getElem?_map

theorem compareLine_accept (e a : Accepted) : compareLine (.accept e) (.accept a) =
    (firstDifference 0 e.compared a.compared).getD (matchLine (min e.records a.records)) := rfl

/-- The comparison of two accepted transcripts says MATCH exactly when they have the same events, and else reports the
first event at which they differ, where the hash function has no collision among the compared bytes of the two. -/
theorem compare_line_exact {a b : List UInt8} {va vb : Accepted} (ha : verify sha a = .accept va)
    (hb : verify sha b = .accept vb)
    (hinj : Set.InjOn sha {x | x ∈ (recordsOf a).map compareOf ∨ x ∈ (recordsOf b).map compareOf}) :
    ((∃ n, compareLine (verify sha a) (verify sha b) = matchLine n) ↔ events a = events b) ∧
      (events a ≠ events b → ∃ i e f subsystem, (∀ j < i, (events a)[j]? = (events b)[j]?) ∧
        (events a)[i]? ≠ (events b)[i]? ∧
        compareLine (verify sha a) (verify sha b) = divergenceLine (i + 1) e f subsystem) := by
  obtain ⟨-, hla, hea, -, hca, -⟩ := verify_accept ha
  obtain ⟨-, hlb, heb, -, hcb, -⟩ := verify_accept hb
  have hga : ∀ {j : Nat} {e : Hash × Nat}, va.compared[j]? = some e →
      ∃ x, (recordsOf a)[j]? = some x ∧ sha (compareOf x) = e.1 := by
    intro j e h
    rw [hca, List.getElem?_map, Option.map_eq_some_iff] at h
    obtain ⟨x, hx, rfl⟩ := h
    exact ⟨x, hx, rfl⟩
  have hgb : ∀ {j : Nat} {e : Hash × Nat}, vb.compared[j]? = some e →
      ∃ x, (recordsOf b)[j]? = some x ∧ sha (compareOf x) = e.1 := by
    intro j e h
    rw [hcb, List.getElem?_map, Option.map_eq_some_iff] at h
    obtain ⟨x, hx, rfl⟩ := h
    exact ⟨x, hx, rfl⟩
  -- at one position the digests are equal exactly when the events are
  have hsame : ∀ (j : Nat) (x y : List UInt8), (recordsOf a)[j]? = some x → (recordsOf b)[j]? = some y →
      (sha (compareOf x) = sha (compareOf y) ↔ eventOf x = eventOf y) := by
    intro j x y hx hy
    obtain ⟨p, hp⟩ := hla.get hx
    obtain ⟨q, hq⟩ := hlb.get hy
    rw [← compareOf_inj hp hq]
    constructor
    · apply hinj
      · exact Or.inl (List.mem_map_of_mem (List.mem_of_getElem? hx))
      · exact Or.inr (List.mem_map_of_mem (List.mem_of_getElem? hy))
    · exact congrArg sha
  have hat : ∀ (j : Nat) (x y : List UInt8), (recordsOf a)[j]? = some x → (recordsOf b)[j]? = some y →
      (∀ e f : Hash × Nat, va.compared[j]? = some e → vb.compared[j]? = some f → e.1 = f.1) → eventOf x = eventOf y := by
    intro j x y hx hy h
    apply (hsame j x y hx hy).1
    apply h (sha (compareOf x), u16le (x.drop 2)) (sha (compareOf y), u16le (y.drop 2))
    · rw [hca, List.getElem?_map, hx]
      rfl
    · rw [hcb, List.getElem?_map, hy]
      rfl
  rw [ha, hb, compareLine_accept]
  obtain ⟨hnone, hall⟩ | ⟨i, e, f, he, hf, hne, hbelow, hline⟩ := firstDifference_spec 0 va.compared vb.compared
  · have hev : ∀ (j : Nat) (x y : List UInt8), (recordsOf a)[j]? = some x → (recordsOf b)[j]? = some y →
        eventOf x = eventOf y :=
      fun j x y hx hy => hat j x y hx hy (hall j)
    have heq : events a = events b := by
      have hlen := hea.length_eq heb hev
      apply List.ext_getElem
      · simp only [events, List.length_map, hlen]
      · intro j h1 h2
        simp only [events, List.length_map] at h1 h2
        simp only [events, List.getElem_map]
        exact hev j _ _ (List.getElem?_eq_getElem h1) (List.getElem?_eq_getElem h2)
    rw [hnone, Option.getD_none]
    exact ⟨⟨fun _ => heq, fun _ => ⟨_, rfl⟩⟩, fun h => absurd heq h⟩
  · obtain ⟨x, hx, hxe⟩ := hga he
    obtain ⟨y, hy, hyf⟩ := hgb hf
    have hdiff : (events a)[i]? ≠ (events b)[i]? := by
      rw [get_events, get_events, hx, hy]
      intro h
      apply hne
      rw [← hxe, ← hyf]
      exact (hsame i x y hx hy).2 (Option.some.inj h)
    have hne' : events a ≠ events b := fun h => hdiff (by rw [h])
    rw [hline, Option.getD_some]
    refine ⟨⟨?_, fun h => absurd h hne'⟩, fun _ => ⟨i, e.1, f.1, e.2, ?_, hdiff, ?_⟩⟩
    · rintro ⟨n, hn⟩
      exact absurd hn.symm (matchLine_ne_divergenceLine _ _ _ _ _)
    · intro j hj
      have hxlen := (List.getElem?_eq_some_iff.1 hx).1
      have hylen := (List.getElem?_eq_some_iff.1 hy).1
      have hxj : (recordsOf a)[j]? = some (recordsOf a)[j] := List.getElem?_eq_getElem (by omega)
      have hyj : (recordsOf b)[j]? = some (recordsOf b)[j] := List.getElem?_eq_getElem (by omega)
      rw [get_events, get_events, hxj, hyj]
      exact congrArg some (hat j _ _ hxj hyj (hbelow j hj))
    · rw [Nat.zero_add]

theorem compare_line_exact_sample : events sampleFirst ≠ events sampleSecond ∧
    ∃ i e f subsystem, (∀ j < i, (events sampleFirst)[j]? = (events sampleSecond)[j]?) ∧
      (events sampleFirst)[i]? ≠ (events sampleSecond)[i]? ∧
      compareLine (verify sampleSha sampleFirst) (verify sampleSha sampleSecond) =
        divergenceLine (i + 1) e f subsystem := by
  have hall : ∀ x ∈ (recordsOf sampleFirst ++ recordsOf sampleSecond).map compareOf,
      ∀ y ∈ (recordsOf sampleFirst ++ recordsOf sampleSecond).map compareOf, sampleSha x = sampleSha y → x = y := by
    decide
  have hne : events sampleFirst ≠ events sampleSecond := by decide
  refine ⟨hne, (compare_line_exact verify_sampleFirst verify_sampleSecond ?_).2 hne⟩
  simp only [List.map_append, List.mem_append] at hall
  exact fun x hx y hy => hall x hx y hy

end SovereignCore.Replay
