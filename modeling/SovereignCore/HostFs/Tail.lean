import SovereignCore.HostFs.Config

/-!
# The tail block

`zero_tail_block` clears the rows of the tokens that a chunk does not hold, in every layer and plane. A row is cleared as
one span, from its first head to the end of its last, and the strides come from the configuration: that rows lie in the
block and apart from each other follows from what `validate_config` checks.

* `Spans`, `spans_of_validate` : the checks of the strides as inequalities;
* `rowOffset_inj`, `rowOffset_le` : rows lie apart and in the block;
* `getElem_zeroTailBlock` : the block afterwards, byte by byte;
* `zero_tail_exact` : every byte of a tail row is zero, every other byte is as before.
-/

namespace SovereignCore.HostFs.HostFsConfig

open Store Result

variable {c : HostFsConfig} {block : List UInt8} {valid layer plane tok head j i : Nat}

/-! ## What the checks give -/

def headBytes (c : HostFsConfig) : Nat := c.headDim.toNat * c.layout.elementBytes.toNat

def planeSpan (c : HostFsConfig) : Nat := (c.blockSize.toNat - 1) * c.layout.tokenStride.toNat + c.rowBytes

/-- Heads fit into a row, rows into a plane, two planes into a layer, layers into a block. -/
structure Spans (c : HostFsConfig) : Prop where
  nonempty : 0 < c.rowBytes
  headBytes : c.headBytes ≤ c.layout.headStride.toNat
  row : c.rowBytes ≤ c.layout.tokenStride.toNat
  plane : c.planeSpan ≤ c.layout.kvPlaneStride.toNat
  layer : c.layout.kvPlaneStride.toNat + c.planeSpan ≤ c.layout.layerStride.toNat
  block : (c.numLayers.toNat - 1) * c.layout.layerStride.toNat + (c.layout.kvPlaneStride.toNat + c.planeSpan) ≤
    c.layout.blockStride.toNat

theorem checkedMul_ok {a b n : Nat} (h : checkedMul a b = .ok n) : n = a * b := by
  rw [checkedMul, allow_ok] at h
  exact (Except.ok.inj h.2).symm

theorem checkedAdd_ok {a b n : Nat} (h : checkedAdd a b = .ok n) : n = a + b := by
  rw [checkedAdd, allow_ok] at h
  exact (Except.ok.inj h.2).symm

theorem fitsIn_ok {n : Nat} {s : UInt64} (h : fitsIn n s = .ok ()) : n ≤ s.toNat := by
  rw [fitsIn, guard_ok] at h
  exact Nat.le_of_not_lt h.1

theorem spans_of_validate (h : c.validateConfig = .ok ()) : c.Spans := by
  rw [validateConfig, guard_ok] at h
  obtain ⟨hsizes, h⟩ := h
  simp only [bind_ok] at h
  obtain ⟨headBytes, hmul, ⟨⟩, hhead, heads, hheads, rowSpan, hrow, ⟨⟩, hrowfit, rows, hrows, plane, hplane, ⟨⟩, hplanefit,
    two, htwo, ⟨⟩, htwofit, layers, hlayers, total, htotal, htotalfit⟩ := h
  obtain rfl := checkedMul_ok hmul
  obtain rfl := checkedMul_ok hheads
  obtain rfl := checkedAdd_ok hrow
  obtain rfl := checkedMul_ok hrows
  obtain rfl := checkedAdd_ok hplane
  obtain rfl := checkedAdd_ok htwo
  obtain rfl := checkedMul_ok hlayers
  obtain rfl := checkedAdd_ok htotal
  have hdim : c.headDim.toNat ≠ 0 := by
    intro h0
    have : c.headDim = 0 := UInt32.toNat_inj.1 h0
    simp [badSizes, this] at hsizes
  have helement : c.layout.elementBytes.toNat ≠ 0 := by
    intro h0
    have : c.layout.elementBytes = 0 := UInt64.toNat_inj.1 h0
    simp [badSizes, this] at hsizes
  have hpos : 0 < c.rowBytes :=
    Nat.add_pos_right _ (Nat.mul_pos (Nat.pos_of_ne_zero hdim) (Nat.pos_of_ne_zero helement))
  exact ⟨hpos, fitsIn_ok hhead, fitsIn_ok hrowfit, fitsIn_ok hplanefit, fitsIn_ok htwofit,
    fitsIn_ok htotalfit⟩

/-! ## Rows -/

/-- A multiple of a stride and a rest below it determine each other. -/
theorem stride_inj {s a a' b b' : Nat} (hb : b < s) (hb' : b' < s) (h : a * s + b = a' * s + b') : a = a' ∧ b = b' := by
  have hpos : 0 < s := Nat.lt_of_le_of_lt (Nat.zero_le b) hb
  have ha : a = a' := by
    have := congrArg (· / s) h
    simpa [Nat.mul_comm _ s, Nat.mul_add_div hpos, Nat.div_eq_of_lt hb, Nat.div_eq_of_lt hb'] using this
  subst ha
  exact ⟨rfl, Nat.add_left_cancel h⟩

theorem in_plane (ht : tok < c.blockSize.toNat) (hj : j < c.rowBytes) :
    tok * c.layout.tokenStride.toNat + j < c.planeSpan := by
  have hle : tok * c.layout.tokenStride.toNat ≤ (c.blockSize.toNat - 1) * c.layout.tokenStride.toNat :=
    Nat.mul_le_mul_right _ (by omega)
  rw [planeSpan]
  omega

theorem in_layer (hp : plane < 2) (ht : tok < c.blockSize.toNat) (hj : j < c.rowBytes) :
    plane * c.layout.kvPlaneStride.toNat + (tok * c.layout.tokenStride.toNat + j) <
      c.layout.kvPlaneStride.toNat + c.planeSpan := by
  have hrow := in_plane ht hj
  have hle : plane * c.layout.kvPlaneStride.toNat ≤ 1 * c.layout.kvPlaneStride.toNat :=
    Nat.mul_le_mul_right _ (by omega)
  omega

theorem rowOffset_lt (hs : c.Spans) (hl : layer < c.numLayers.toNat) (hp : plane < 2) (ht : tok < c.blockSize.toNat)
    (hj : j < c.rowBytes) : c.rowOffset layer plane tok + j < c.layout.blockStride.toNat := by
  have hlayer := in_layer hp ht hj
  have hle : layer * c.layout.layerStride.toNat ≤ (c.numLayers.toNat - 1) * c.layout.layerStride.toNat :=
    Nat.mul_le_mul_right _ (by omega)
  have hblock := hs.block
  rw [rowOffset]
  omega

theorem rowOffset_inj {layer' plane' tok' j' : Nat} (hs : c.Spans) (hp : plane < 2) (hp' : plane' < 2)
    (ht : tok < c.blockSize.toNat) (ht' : tok' < c.blockSize.toNat) (hj : j < c.rowBytes) (hj' : j' < c.rowBytes)
    (h : c.rowOffset layer plane tok + j = c.rowOffset layer' plane' tok' + j') :
    layer = layer' ∧ plane = plane' ∧ tok = tok' ∧ j = j' := by
  simp only [rowOffset, Nat.add_assoc] at h
  obtain ⟨hlayer, h⟩ := stride_inj ((in_layer hp ht hj).trans_le hs.layer) ((in_layer hp' ht' hj').trans_le hs.layer) h
  obtain ⟨hplane, h⟩ := stride_inj ((in_plane ht hj).trans_le hs.plane) ((in_plane ht' hj').trans_le hs.plane) h
  obtain ⟨htok, hbyte⟩ := stride_inj (hj.trans_le hs.row) (hj'.trans_le hs.row) h
  exact ⟨hlayer, hplane, htok, hbyte⟩

/-- Byte `j` of a head of a token. -/
def elementOffset (c : HostFsConfig) (layer plane head tok j : Nat) : Nat :=
  c.rowOffset layer plane tok + (head * c.layout.headStride.toNat + j)

theorem in_row (hh : head < c.numKvHeads.toNat) (hj : j < c.headBytes) :
    head * c.layout.headStride.toNat + j < c.rowBytes := by
  have hle : head * c.layout.headStride.toNat ≤ (c.numKvHeads.toNat - 1) * c.layout.headStride.toNat :=
    Nat.mul_le_mul_right _ (by omega)
  rw [headBytes] at hj
  rw [rowBytes]
  omega

/-! ## The block afterwards -/

theorem mem_tailRows {off : Nat} : off ∈ c.tailRows valid ↔ ∃ layer plane tok, layer < c.numLayers.toNat ∧ plane < 2 ∧
    valid ≤ tok ∧ tok < c.blockSize.toNat ∧ off = c.rowOffset layer plane tok := by
  simp only [tailRows, List.mem_flatMap, List.mem_map, List.mem_range, List.mem_range'_1]
  constructor
  · rintro ⟨layer, hl, plane, hp, tok, ⟨hv, ht⟩, rfl⟩
    exact ⟨layer, plane, tok, hl, hp, hv, by omega, rfl⟩
  · rintro ⟨layer, plane, tok, hl, hp, hv, ht, rfl⟩
    exact ⟨layer, hl, plane, hp, tok, ⟨hv, by omega⟩, rfl⟩

theorem getElem?_put_zeros {b : List UInt8} {off n i : Nat} (h : off + n ≤ b.length) :
    (put b off (List.replicate n 0))[i]? = if off ≤ i ∧ i < off + n then some 0 else b[i]? := by
  have htake : (b.take off).length = off := by rw [List.length_take]; omega
  rw [put, List.length_replicate, List.append_assoc]
  by_cases hlt : i < off
  · rw [List.getElem?_append_left (by omega), List.getElem?_take_of_lt hlt, if_neg (by omega)]
  · rw [List.getElem?_append_right (by omega), htake]
    by_cases hin : i < off + n
    · rw [List.getElem?_append_left (by simp; omega), List.getElem?_replicate, if_pos (by omega), if_pos (by omega)]
    · rw [List.getElem?_append_right (by simp; omega), List.length_replicate, List.getElem?_drop, if_neg (by omega)]
      congr 1
      omega

theorem getElem?_foldl_put {n : Nat} {offs : List Nat} {b : List UInt8} (h : ∀ off ∈ offs, off + n ≤ b.length) (i : Nat) :
    (offs.foldl (fun b off => put b off (List.replicate n 0)) b)[i]? =
      if ∃ off ∈ offs, off ≤ i ∧ i < off + n then some 0 else b[i]? := by
  induction offs generalizing b with
  | nil => simp
  | cons off offs ih =>
    have hoff := h off List.mem_cons_self
    have hlen : (put b off (List.replicate n 0)).length = b.length := length_put (by simpa using hoff)
    rw [List.foldl_cons, ih (by intro o ho; rw [hlen]; exact h o (List.mem_cons_of_mem _ ho)), getElem?_put_zeros hoff]
    simp only [List.exists_mem_cons_iff]
    by_cases hrest : ∃ off ∈ offs, off ≤ i ∧ i < off + n
    · rw [if_pos hrest, if_pos (Or.inr hrest)]
    · rw [if_neg hrest]
      by_cases hhere : off ≤ i ∧ i < off + n
      · rw [if_pos hhere, if_pos (Or.inl hhere)]
      · rw [if_neg hhere, if_neg (not_or.2 ⟨hhere, hrest⟩)]

/-- Byte `i` lies in the row of an unused token: between the first byte of its first head and the last of its last. -/
def InTailRow (c : HostFsConfig) (valid i : Nat) : Prop :=
  ∃ layer plane tok j, layer < c.numLayers.toNat ∧ plane < 2 ∧ valid ≤ tok ∧ tok < c.blockSize.toNat ∧ j < c.rowBytes ∧
    i = c.rowOffset layer plane tok + j

theorem inTailRow_iff : c.InTailRow valid i ↔ ∃ off ∈ c.tailRows valid, off ≤ i ∧ i < off + c.rowBytes := by
  constructor
  · rintro ⟨layer, plane, tok, j, hl, hp, hv, ht, hj, rfl⟩
    exact ⟨_, mem_tailRows.2 ⟨layer, plane, tok, hl, hp, hv, ht, rfl⟩, by omega, by omega⟩
  · rintro ⟨off, hoff, hle, hlt⟩
    obtain ⟨layer, plane, tok, hl, hp, hv, ht, rfl⟩ := mem_tailRows.1 hoff
    exact ⟨layer, plane, tok, i - c.rowOffset layer plane tok, hl, hp, hv, ht, by omega, by omega⟩

theorem tailRows_le (hs : c.Spans) {off : Nat} (h : off ∈ c.tailRows valid) :
    off + c.rowBytes ≤ c.layout.blockStride.toNat := by
  obtain ⟨layer, plane, tok, hl, hp, -, ht, rfl⟩ := mem_tailRows.1 h
  have hpos := hs.nonempty
  have := rowOffset_lt (j := c.rowBytes - 1) hs hl hp ht (by omega)
  omega

theorem getElem?_zeroTailBlock (hs : c.Spans) (hlen : block.length = c.layout.blockStride.toNat) (valid i : Nat) :
    (c.InTailRow valid i → (c.zeroTailBlock block valid)[i]? = some 0) ∧
    (¬ c.InTailRow valid i → (c.zeroTailBlock block valid)[i]? = block[i]?) := by
  have hfit : ∀ off ∈ c.tailRows valid, off + c.rowBytes ≤ block.length := by
    intro off hoff
    rw [hlen]
    exact tailRows_le hs hoff
  have hget := getElem?_foldl_put hfit i
  rw [inTailRow_iff]
  constructor
  · intro hin
    rw [zeroTailBlock, hget, if_pos hin]
  · intro hout
    rw [zeroTailBlock, hget, if_neg hout]

/-- In a block of an accepted layout every row that is cleared lies in the block, a byte is zero afterwards where it lies
in the row of an unused token and as before elsewhere: so every element byte of the unused tokens is zero, in every
layer, plane and head, and every element byte of the tokens in use is as before. -/
theorem zero_tail_exact (hc : c.validateConfig = .ok ()) (hlen : block.length = c.layout.blockStride.toNat) (valid : Nat) :
    (∀ off ∈ c.tailRows valid, off + c.rowBytes ≤ block.length) ∧
    (∀ i, (c.InTailRow valid i → (c.zeroTailBlock block valid)[i]? = some 0) ∧
      (¬ c.InTailRow valid i → (c.zeroTailBlock block valid)[i]? = block[i]?)) ∧
    (∀ layer plane head tok j, layer < c.numLayers.toNat → plane < 2 → head < c.numKvHeads.toNat →
      tok < c.blockSize.toNat → j < c.headBytes →
      (valid ≤ tok → (c.zeroTailBlock block valid)[c.elementOffset layer plane head tok j]? = some 0) ∧
      (tok < valid → (c.zeroTailBlock block valid)[c.elementOffset layer plane head tok j]? =
        block[c.elementOffset layer plane head tok j]?)) := by
  have hs := spans_of_validate hc
  refine ⟨fun off hoff => ?_, getElem?_zeroTailBlock hs hlen valid, fun layer plane head tok j hl hp hh ht hj => ⟨?_, ?_⟩⟩
  · rw [hlen]
    exact tailRows_le hs hoff
  · intro hv
    refine (getElem?_zeroTailBlock hs hlen valid _).1 ?_
    exact ⟨layer, plane, tok, head * c.layout.headStride.toNat + j, hl, hp, hv, ht, in_row hh hj, rfl⟩
  · intro hv
    refine (getElem?_zeroTailBlock hs hlen valid _).2 ?_
    rintro ⟨layer', plane', tok', j', -, hp', hv', ht', hj', he⟩
    -- the byte lies in a row of its own, of a token in use
    obtain ⟨-, -, htok, -⟩ := rowOffset_inj hs hp hp' ht ht' (in_row hh hj) hj' he
    omega

/-- Two heads of one byte each, with a byte of padding between them. -/
def paddedConfig : HostFsConfig :=
  { namespaceId := 0, modelSha256 := 0
    layout := { headStride := 2, tokenStride := 3, kvPlaneStride := 6, layerStride := 12, blockStride := 12
                elementBytes := 1 }
    numLayers := 1, numKvHeads := 2, headDim := 1, blockSize := 2, chunkTokens := 2, dtype := 1, backendFormat := 1 }

theorem zero_tail_exact_padded :
    paddedConfig.validateConfig = .ok () ∧
      (paddedConfig.zeroTailBlock (List.replicate 12 7) 1)[paddedConfig.elementOffset 0 1 1 1 0]? = some 0 ∧
      (paddedConfig.zeroTailBlock (List.replicate 12 7) 1)[paddedConfig.elementOffset 0 1 1 0 0]? = some 7 := by
  have hc : paddedConfig.validateConfig = .ok () := by decide
  have hlen : (List.replicate 12 7 : List UInt8).length = paddedConfig.layout.blockStride.toNat := by decide
  obtain ⟨-, -, hexact⟩ := zero_tail_exact hc hlen 1
  refine ⟨hc, (hexact 0 1 1 1 0 (by decide) (by decide) (by decide) (by decide) (by decide)).1 (by decide), ?_⟩
  rw [(hexact 0 1 1 0 0 (by decide) (by decide) (by decide) (by decide) (by decide)).2 (by decide)]
  decide

/-- Byte 4 of that block lies between the two heads of the unused token: it is an element byte of no token, and it is
cleared. -/
theorem padding_is_cleared :
    paddedConfig.validateConfig = .ok () ∧
      (∀ layer plane head tok j, layer < 1 → plane < 2 → head < 2 → tok < 2 → j < paddedConfig.headBytes →
        paddedConfig.elementOffset layer plane head tok j ≠ 4) ∧
      (List.replicate 12 (7 : UInt8))[4]? = some 7 ∧
      (paddedConfig.zeroTailBlock (List.replicate 12 7) 1)[4]? = some 0 := by
  refine ⟨by decide, fun layer plane head tok j hl hp hh ht hj => ?_, by decide, by decide⟩
  have hj : j < 1 := hj
  have hoff : paddedConfig.elementOffset layer plane head tok j = layer * 12 + plane * 6 + tok * 3 + (head * 2 + j) := rfl
  rw [hoff]
  omega

end SovereignCore.HostFs.HostFsConfig
