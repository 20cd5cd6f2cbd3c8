import SovereignCore.Lib.Bytes
import SovereignCore.Lib.Result
import Mathlib.Data.Set.Function
import Mathlib.Data.List.Infix

/-!
# Prefix-chained chunk keys

`chunk_key` and `chunk_chain` (`identity.rs`): the key of a chunk hashes the namespace, the key of the chunk before it,
the chunk's position and its tokens, so a key stands for a whole token prefix. The hash function is a parameter.

* `chunkPreimage`, `chunkKey`, `chunkChain` : the derivation;
* `chunkChain_spec` : every key of a chain and what it hashes;
* `chunk_chain_sound` : equal keys are of equal prefixes, and the chain of a prefix is a prefix of the chain.
-/

namespace SovereignCore.Store

/-- A SHA-256 value. -/
abbrev Digest := Vector UInt8 32

inductive IdentityError
  | overflow
  | tokenCountOutOfRange
  | invalidGeometry
  deriving DecidableEq, Repr

def le32 (v : UInt32) : List UInt8 := leBytes 4 v.toNat

/-- `AIEN-PKV-CHUNK-V1` and a zero byte. -/
def chunkDomain : List UInt8 :=
  [65, 73, 69, 78, 45, 80, 75, 86, 45, 67, 72, 85, 78, 75, 45, 86, 49, 0]

/-- The bytes that `chunk_key` hashes; the first chunk has 32 zero bytes for its parent. -/
def chunkPreimage (ns : Digest) (parent : Option Digest) (first : UInt32) (tokens : List UInt32) : List UInt8 :=
  chunkDomain ++ (ns.toList ++ ((parent.getD (.replicate 32 0)).toList ++
    (le32 first ++ (le32 (.ofNat tokens.length) ++ tokens.flatMap le32))))

section Chain

variable (sha : List UInt8 → Digest)

def chunkKey (ns : Digest) (parent : Option Digest) (first : UInt32) (tokens : List UInt32) :
    Except IdentityError Digest :=
  if 2 ^ 32 ≤ tokens.length then .error .overflow
  else if tokens.length = 0 then .error .tokenCountOutOfRange
  else if 2 ^ 32 ≤ first.toNat + tokens.length then .error .overflow
  else .ok (sha (chunkPreimage ns parent first tokens))

/-- Chunk `i` of the tokens. -/
def chunk (per : Nat) (tokens : List UInt32) (i : Nat) : List UInt32 := (tokens.drop (i * per)).take per

/-- `tokens.chunks(per)`: full chunks, then what is left. -/
def chunks (per : Nat) (tokens : List UInt32) : List (List UInt32) :=
  (List.range ((tokens.length + per - 1) / per)).map (chunk per tokens)

/-- `u32::try_from(i)` times the chunk size, when both fit. -/
def firstPosition (chunkTokens : UInt32) (i : Nat) : Except IdentityError UInt32 :=
  if i < 2 ^ 32 ∧ i * chunkTokens.toNat < 2 ^ 32 then .ok (.ofNat (i * chunkTokens.toNat)) else .error .overflow

/-- The loop over the chunks from number `i` on; `last` is the key before. -/
def chainFrom (ns : Digest) (chunkTokens : UInt32) : Nat → Option Digest → List (List UInt32) →
    Except IdentityError (List Digest)
  | _, _, [] => .ok []
  | i, last, c :: cs => do
    let first ← firstPosition chunkTokens i
    let key ← chunkKey sha ns last first c
    let keys ← chainFrom ns chunkTokens (i + 1) (some key) cs
    .ok (key :: keys)

def chunkChain (ns : Digest) (chunkTokens : UInt32) (tokens : List UInt32) : Except IdentityError (List Digest) :=
  if chunkTokens = 0 then .error .invalidGeometry
  else chainFrom sha ns chunkTokens 0 none (chunks chunkTokens.toNat tokens)

/-- The bytes behind key `i` of a chain. -/
def preimageAt (ns : Digest) (chunkTokens : UInt32) (tokens : List UInt32) (keys : List Digest) (i : Nat) :
    List UInt8 :=
  chunkPreimage ns (if i = 0 then none else keys[i - 1]?) (.ofNat (i * chunkTokens.toNat))
    (chunk chunkTokens.toNat tokens i)

def hashedBy (ns : Digest) (chunkTokens : UInt32) (tokens : List UInt32) (keys : List Digest) : Set (List UInt8) :=
  { x | ∃ i < keys.length, x = preimageAt ns chunkTokens tokens keys i }

/-! ## Preimages -/

theorem le32_inj {a b : UInt32} (h : le32 a = le32 b) : a = b := by
  have hv := congrArg leValue h
  unfold le32 at hv
  rw [leValue_leBytes _ _ a.toNat_lt, leValue_leBytes _ _ b.toNat_lt] at hv
  exact UInt32.toNat_inj.1 hv

theorem length_le32 (a : UInt32) : (le32 a).length = 4 := length_leBytes 4 _

theorem flatMap_le32_inj {s t : List UInt32} (hl : s.length = t.length) (h : s.flatMap le32 = t.flatMap le32) : s = t := by
  induction s generalizing t with
  | nil => exact (List.length_eq_zero_iff.1 hl.symm).symm
  | cons a s ih =>
    cases t with
    | nil => cases hl
    | cons b t =>
      rw [List.flatMap_cons, List.flatMap_cons] at h
      obtain ⟨hab, hst⟩ := List.append_inj h ((length_le32 a).trans (length_le32 b).symm)
      rw [le32_inj hab, ih (Nat.succ.inj hl) hst]

theorem chunkPreimage_inj {n m : Digest} {p q : Option Digest} {f g : UInt32} {s t : List UInt32}
    (hs : s.length < 2 ^ 32) (ht : t.length < 2 ^ 32) (h : chunkPreimage n p f s = chunkPreimage m q g t) :
    n = m ∧ p.getD (.replicate 32 0) = q.getD (.replicate 32 0) ∧ f = g ∧ s = t := by
  unfold chunkPreimage at h
  have h := List.append_cancel_left h
  obtain ⟨hn, h⟩ := List.append_inj h (by simp)
  obtain ⟨hp, h⟩ := List.append_inj h (by simp)
  obtain ⟨hf, h⟩ := List.append_inj h ((length_le32 f).trans (length_le32 g).symm)
  obtain ⟨hc, h⟩ := List.append_inj h ((length_le32 _).trans (length_le32 _).symm)
  have hlen : s.length = t.length := by
    have := congrArg UInt32.toNat (le32_inj hc)
    rwa [UInt32.toNat_ofNat', UInt32.toNat_ofNat', Nat.mod_eq_of_lt hs, Nat.mod_eq_of_lt ht] at this
  exact ⟨Vector.toList_inj.1 hn, Vector.toList_inj.1 hp, le32_inj hf, flatMap_le32_inj hlen h⟩

/-! ## Chains -/

variable {sha} {ns : Digest} {c : UInt32} {tokens : List UInt32} {keys : List Digest}

theorem chainFrom_spec {i : Nat} {last : Option Digest} {cs : List (List UInt32)}
    (h : chainFrom sha ns c i last cs = .ok keys) :
    keys.length = cs.length ∧ ∀ k (hk : k < cs.length), (i + k) * c.toNat < 2 ^ 32 ∧ cs[k].length < 2 ^ 32 ∧
      keys[k]? = some (sha (chunkPreimage ns (if k = 0 then last else keys[k - 1]?) (.ofNat ((i + k) * c.toNat))
        cs[k])) := by
  induction cs generalizing i last keys with
  | nil =>
    cases h
    exact ⟨rfl, fun k hk => absurd hk (Nat.not_lt_zero k)⟩
  | cons ch cs ih =>
    rw [chainFrom, Result.bind_ok] at h
    obtain ⟨first, hfirst, h⟩ := h
    rw [Result.bind_ok] at h
    obtain ⟨key, hkey, h⟩ := h
    rw [Result.bind_ok] at h
    obtain ⟨ks, hks, h⟩ := h
    cases h
    unfold firstPosition at hfirst
    rw [Result.allow_ok] at hfirst
    obtain ⟨hpos, hfirst⟩ := hfirst
    cases hfirst
    unfold chunkKey at hkey
    simp only [Result.guard_ok] at hkey
    obtain ⟨hlen, -, -, hkey⟩ := hkey
    cases hkey
    obtain ⟨hl, hrest⟩ := ih hks
    refine ⟨by rw [List.length_cons, List.length_cons, hl], ?_⟩
    intro k hk
    cases k with
    | zero => exact ⟨hpos.2, Nat.lt_of_not_le hlen, rfl⟩
    | succ k =>
      have hk' : k < cs.length := Nat.lt_of_succ_lt_succ hk
      have hadd : i + (k + 1) = i + 1 + k := by omega
      rw [hadd]
      obtain ⟨h1, h2, h3⟩ := hrest k hk'
      refine ⟨h1, h2, ?_⟩
      rw [List.getElem?_cons_succ, h3]
      -- the key before is the head of this loop, or the key before in the rest
      cases k with
      | zero => rfl
      | succ k => rfl

theorem chainFrom_append {i : Nat} {last : Option Digest} {cs ds : List (List UInt32)}
    (h : chainFrom sha ns c i last (cs ++ ds) = .ok keys) :
    ∃ ks, chainFrom sha ns c i last cs = .ok ks ∧ ks <+: keys := by
  induction cs generalizing i last keys with
  | nil => exact ⟨[], rfl, List.nil_prefix⟩
  | cons ch cs ih =>
    rw [List.cons_append, chainFrom, Result.bind_ok] at h
    obtain ⟨first, hfirst, h⟩ := h
    rw [Result.bind_ok] at h
    obtain ⟨key, hkey, h⟩ := h
    rw [Result.bind_ok] at h
    obtain ⟨ks, hks, h⟩ := h
    cases h
    obtain ⟨ks', hks', hpre⟩ := ih hks
    refine ⟨key :: ks', ?_, List.cons_prefix_cons.2 ⟨rfl, hpre⟩⟩
    rw [chainFrom, hfirst]
    show (chunkKey sha ns last first ch >>= _) = _
    rw [hkey]
    show (chainFrom sha ns c (i + 1) (some key) cs >>= _) = _
    rw [hks']
    rfl

theorem chunkChain_ok (h : chunkChain sha ns c tokens = .ok keys) :
    0 < c.toNat ∧ chainFrom sha ns c 0 none (chunks c.toNat tokens) = .ok keys := by
  unfold chunkChain at h
  rw [Result.guard_ok] at h
  refine ⟨Nat.pos_of_ne_zero fun h0 => h.1 ?_, h.2⟩
  exact UInt32.toNat_inj.1 h0

theorem chunkChain_spec (h : chunkChain sha ns c tokens = .ok keys) (i : Nat) (hi : i < keys.length) :
    i * c.toNat < 2 ^ 32 ∧ (chunk c.toNat tokens i).length < 2 ^ 32 ∧
      keys[i] = sha (preimageAt ns c tokens keys i) := by
  obtain ⟨-, hchain⟩ := chunkChain_ok h
  obtain ⟨hlen, hspec⟩ := chainFrom_spec hchain
  have hi' : i < (chunks c.toNat tokens).length := by
    rw [← hlen]
    exact hi
  obtain ⟨h1, h2, h3⟩ := hspec i hi'
  have hget : (chunks c.toNat tokens)[i] = chunk c.toNat tokens i := by simp [chunks]
  rw [hget] at h2 h3
  rw [Nat.zero_add] at h1 h3
  refine ⟨h1, h2, ?_⟩
  rw [List.getElem?_eq_getElem hi] at h3
  exact Option.some.inj h3

/-- The tokens up to chunk `i`. -/
theorem take_chunk (per : Nat) (tokens : List UInt32) (i : Nat) :
    tokens.take ((i + 1) * per) = tokens.take (i * per) ++ chunk per tokens i := by
  unfold chunk
  rw [Nat.succ_mul, List.take_add]

theorem chunks_prefix {per : Nat} (hper : 0 < per) {p : List UInt32} (hp : p <+: tokens) (hd : per ∣ p.length) :
    ∃ ds, chunks per tokens = chunks per p ++ ds := by
  obtain ⟨n, hn⟩ := hd
  obtain ⟨rest, rfl⟩ := hp
  have hcount : (p.length + per - 1) / per = n := by
    rw [hn, Nat.add_sub_assoc hper, Nat.mul_add_div hper, Nat.div_eq_of_lt (by omega), Nat.add_zero]
  have hmore : n ≤ ((p ++ rest).length + per - 1) / per := by
    rw [← hcount]
    apply Nat.div_le_div_right
    rw [List.length_append]
    omega
  obtain ⟨m, hm⟩ := Nat.exists_eq_add_of_le hmore
  refine ⟨((List.range m).map (n + ·)).map (chunk per (p ++ rest)), ?_⟩
  unfold chunks
  rw [hcount, hm, List.range_add, List.map_append]
  congr 1
  apply List.map_congr_left
  intro i hi
  have hin : (i + 1) * per ≤ p.length := by
    rw [hn, Nat.mul_comm per]
    exact Nat.mul_le_mul_right per (List.mem_range.1 hi)
  have hle : i * per ≤ p.length := le_trans (Nat.mul_le_mul_right per (Nat.le_succ i)) hin
  unfold chunk
  rw [List.drop_append_of_le_length hle, List.take_append_of_le_length]
  rw [List.length_drop]
  rw [Nat.succ_mul] at hin
  omega

end Chain

/-- **A key stands for its token prefix.** Where the hash has no collision among the bytes that two chains hash, equal
keys are of equal namespaces, positions and prefixes; and the chain of a prefix that ends at a chunk boundary is a
prefix of the chain. -/
theorem chunk_chain_sound (sha : List UInt8 → Digest) (n₁ n₂ : Digest) (c : UInt32) (t₁ t₂ : List UInt32)
    (k₁ k₂ : List Digest) (h₁ : chunkChain sha n₁ c t₁ = .ok k₁) (h₂ : chunkChain sha n₂ c t₂ = .ok k₂)
    (hinj : Set.InjOn sha (hashedBy n₁ c t₁ k₁ ∪ hashedBy n₂ c t₂ k₂)) :
    (∀ (i j : Nat) (hi : i < k₁.length) (hj : j < k₂.length), k₁[i] = k₂[j] →
      n₁ = n₂ ∧ i = j ∧ min ((i + 1) * c.toNat) t₁.length = min ((i + 1) * c.toNat) t₂.length ∧
        t₁.take ((i + 1) * c.toNat) = t₂.take ((i + 1) * c.toNat)) ∧
    ∀ p, p <+: t₁ → c.toNat ∣ p.length → ∃ kp, chunkChain sha n₁ c p = .ok kp ∧ kp <+: k₁ := by
  obtain ⟨hc, hchain⟩ := chunkChain_ok h₁
  constructor
  · -- one link: equal keys hash equal bytes
    have hlink : ∀ (i j : Nat) (hi : i < k₁.length) (hj : j < k₂.length), k₁[i] = k₂[j] →
        n₁ = n₂ ∧ i = j ∧ chunk c.toNat t₁ i = chunk c.toNat t₂ j ∧
          (if i = 0 then none else k₁[i - 1]?).getD (.replicate 32 0) =
            (if j = 0 then none else k₂[j - 1]?).getD (.replicate 32 0) := by
      intro i j hi hj he
      obtain ⟨hp₁, hl₁, hk₁⟩ := chunkChain_spec h₁ i hi
      obtain ⟨hp₂, hl₂, hk₂⟩ := chunkChain_spec h₂ j hj
      rw [hk₁, hk₂] at he
      have hpre := hinj (Or.inl ⟨i, hi, rfl⟩) (Or.inr ⟨j, hj, rfl⟩) he
      obtain ⟨hn, hpar, hpos, htok⟩ := chunkPreimage_inj hl₁ hl₂ hpre
      have hij : i * c.toNat = j * c.toNat := by
        have := congrArg UInt32.toNat hpos
        rwa [UInt32.toNat_ofNat', UInt32.toNat_ofNat', Nat.mod_eq_of_lt hp₁, Nat.mod_eq_of_lt hp₂] at this
      exact ⟨hn, Nat.eq_of_mul_eq_mul_right hc hij, htok, hpar⟩
    have htake : ∀ (i : Nat) (hi : i < k₁.length) (hj : i < k₂.length), k₁[i] = k₂[i] →
        t₁.take ((i + 1) * c.toNat) = t₂.take ((i + 1) * c.toNat) := by
      intro i
      induction i with
      | zero =>
        intro hi hj he
        obtain ⟨-, -, hch, -⟩ := hlink 0 0 hi hj he
        rw [take_chunk, take_chunk, hch]
        simp
      | succ i ih =>
        intro hi hj he
        obtain ⟨-, -, hch, hpar⟩ := hlink (i + 1) (i + 1) hi hj he
        have hi' : i < k₁.length := Nat.lt_of_succ_lt hi
        have hj' : i < k₂.length := Nat.lt_of_succ_lt hj
        -- the parents are the keys before
        rw [if_neg (Nat.succ_ne_zero i), if_neg (Nat.succ_ne_zero i), Nat.add_sub_cancel,
          List.getElem?_eq_getElem hi', List.getElem?_eq_getElem hj', Option.getD_some, Option.getD_some] at hpar
        rw [take_chunk, take_chunk c.toNat t₂, hch, ih hi' hj' hpar]
    intro i j hi hj he
    obtain ⟨hn, hij, -, -⟩ := hlink i j hi hj he
    subst hij
    have ht := htake i hi hj he
    refine ⟨hn, rfl, ?_, ht⟩
    have hlen := congrArg List.length ht
    rwa [List.length_take, List.length_take] at hlen
  · intro p hp hd
    obtain ⟨ds, hds⟩ := chunks_prefix hc hp hd
    rw [hds] at hchain
    obtain ⟨kp, hkp, hpre⟩ := chainFrom_append hchain
    refine ⟨kp, ?_, hpre⟩
    unfold chunkChain
    rw [if_neg, hkp]
    intro h0
    rw [h0] at hc
    exact absurd hc (Nat.lt_irrefl 0)

/-! Two chains of two chunks that share the first. The values are SHA-256's. -/

def sampleNs : Digest := .replicate 32 7

def sampleKey : Digest :=
  #v[196, 233, 6, 245, 69, 238, 106, 154, 225, 94, 8, 15, 120, 44, 58, 165, 74, 5, 35, 242, 138, 150, 32, 44,
    40, 55, 75, 41, 242, 148, 26, 72]

def sampleTail : Digest :=
  #v[138, 129, 20, 33, 53, 46, 25, 140, 117, 229, 36, 9, 185, 60, 180, 198, 240, 188, 181, 122, 34, 88, 38, 98,
    247, 195, 19, 110, 183, 140, 172, 243]

def sampleOther : Digest :=
  #v[14, 115, 56, 167, 99, 101, 211, 53, 152, 205, 239, 6, 21, 180, 90, 248, 169, 57, 155, 230, 80, 183, 203, 110,
    155, 112, 147, 233, 167, 172, 59, 119]

def sampleSha (x : List UInt8) : Digest :=
  if x = chunkPreimage sampleNs none 0 [1, 2] then sampleKey
  else if x = chunkPreimage sampleNs (some sampleKey) 2 [3] then sampleTail
  else if x = chunkPreimage sampleNs (some sampleKey) 2 [4] then sampleOther
  else .replicate 32 0

theorem sampleChain_tail : chunkChain sampleSha sampleNs 2 [1, 2, 3] = .ok [sampleKey, sampleTail] := by
  decide +kernel

theorem sampleChain_other : chunkChain sampleSha sampleNs 2 [1, 2, 4] = .ok [sampleKey, sampleOther] := by
  decide +kernel

theorem chunk_chain_sound_sample :
    [1, 2, 3].take 2 = ([1, 2, 4] : List UInt32).take 2 ∧
      ∃ kp, chunkChain sampleSha sampleNs 2 [1, 2] = .ok kp ∧ kp <+: [sampleKey, sampleTail] := by
  have hinj : Set.InjOn sampleSha (hashedBy sampleNs 2 [1, 2, 3] [sampleKey, sampleTail] ∪
      hashedBy sampleNs 2 [1, 2, 4] [sampleKey, sampleOther]) := by
    have hcases : ∀ x ∈ hashedBy sampleNs 2 [1, 2, 3] [sampleKey, sampleTail] ∪
        hashedBy sampleNs 2 [1, 2, 4] [sampleKey, sampleOther],
        (x = chunkPreimage sampleNs none 0 [1, 2] ∧ sampleSha x = sampleKey) ∨
        (x = chunkPreimage sampleNs (some sampleKey) 2 [3] ∧ sampleSha x = sampleTail) ∨
        (x = chunkPreimage sampleNs (some sampleKey) 2 [4] ∧ sampleSha x = sampleOther) := by
      rintro x (⟨i, hi, rfl⟩ | ⟨i, hi, rfl⟩)
      · have hi2 : i = 0 ∨ i = 1 := by
          have : i < 2 := hi
          omega
        rcases hi2 with rfl | rfl
        · exact Or.inl ⟨by decide +kernel, by decide +kernel⟩
        · exact Or.inr (Or.inl ⟨by decide +kernel, by decide +kernel⟩)
      · have hi2 : i = 0 ∨ i = 1 := by
          have : i < 2 := hi
          omega
        rcases hi2 with rfl | rfl
        · exact Or.inl ⟨by decide +kernel, by decide +kernel⟩
        · exact Or.inr (Or.inr ⟨by decide +kernel, by decide +kernel⟩)
    have h1 : sampleKey ≠ sampleTail := by decide +kernel
    have h2 : sampleKey ≠ sampleOther := by decide +kernel
    have h3 : sampleTail ≠ sampleOther := by decide +kernel
    intro x hx y hy he
    rcases hcases x hx with ⟨hx, hsx⟩ | ⟨hx, hsx⟩ | ⟨hx, hsx⟩
    all_goals rcases hcases y hy with ⟨hy, hsy⟩ | ⟨hy, hsy⟩ | ⟨hy, hsy⟩
    all_goals rw [hsx, hsy] at he
    · rw [hx, hy]
    · exact absurd he h1
    · exact absurd he h2
    · exact absurd he.symm h1
    · rw [hx, hy]
    · exact absurd he h3
    · exact absurd he.symm h2
    · exact absurd he.symm h3
    · rw [hx, hy]
  have hsound := chunk_chain_sound sampleSha sampleNs sampleNs 2 [1, 2, 3] [1, 2, 4] _ _ sampleChain_tail
    sampleChain_other hinj
  refine ⟨(hsound.1 0 0 (by decide) (by decide) rfl).2.2.2, hsound.2 [1, 2] ⟨[3], rfl⟩ (by decide)⟩

end SovereignCore.Store
