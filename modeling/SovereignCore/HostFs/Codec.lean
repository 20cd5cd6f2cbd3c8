import SovereignCore.HostFs.Record

/-!
# The codec of the record header

The fields of the header tile its first 224 bytes, in the order in which they are written; the checksum of these bytes
fills the rest. So a header has one byte form, and only that form is read back as the header.

* `layout`, `RecordHeader.fields` : the widths of the fields and their bytes;
* `encode_eq` : the 256 bytes are the fields and their checksum;
* `decodeStruct_ok_iff` : what is accepted, and as which header;
* `record_header_codec` : both round trips.
-/

namespace SovereignCore

/-! ## Cutting a buffer into fields -/

section Cuts
open Wire
variable {n : Nat}

def cuts (buf : List UInt8) : Nat → List Nat → List (List UInt8)
  | _, [] => []
  | off, w :: ws => slice buf off w :: cuts buf (off + w) ws

theorem slice_add (buf : List UInt8) (off n k : Nat) : slice buf off (n + k) = slice buf off n ++ slice buf (off + n) k := by
  unfold slice
  rw [List.take_add, List.drop_drop]

theorem flatten_cuts (buf : List UInt8) (off : Nat) (ws : List Nat) : (cuts buf off ws).flatten = slice buf off ws.sum := by
  induction ws generalizing off with
  | nil => simp [cuts, slice]
  | cons w ws ih => rw [cuts, List.flatten_cons, ih, List.sum_cons, slice_add]

theorem cuts_append (pre : List UInt8) (fields : List (List UInt8)) (rest : List UInt8) :
    cuts (pre ++ (fields.flatten ++ rest)) pre.length (fields.map List.length) = fields := by
  induction fields generalizing pre with
  | nil => rfl
  | cons f fields ih =>
    have hrest := ih (pre ++ f)
    rw [List.length_append, List.append_assoc, ← List.append_assoc f] at hrest
    rw [List.map_cons, cuts, List.flatten_cons, hrest, List.append_assoc f, slice_at rfl rfl]

theorem cuts_flatten (fields : List (List UInt8)) (rest : List UInt8) :
    cuts (fields.flatten ++ rest) 0 (fields.map List.length) = fields := cuts_append [] fields rest

theorem leValue_lt : ∀ bs : List UInt8, leValue bs < 256 ^ bs.length
  | [] => by simp [leValue]
  | b :: bs => by
    have hb := b.toNat_lt
    have hbs := leValue_lt bs
    rw [leValue, List.length_cons, pow_succ]
    omega

theorem leBytes_leValue {bs : List UInt8} (h : bs.length = n) : leBytes n (leValue bs) = bs := by
  subst h
  refine leValue_inj (length_leBytes _ _) ?_
  rw [leValue_leBytes _ _ (leValue_lt bs)]

theorem beBytes_beValue {bs : List UInt8} (h : bs.length = n) : beBytes n (beValue bs) = bs := by
  rw [beBytes, beValue, leBytes_leValue (by rw [List.length_reverse, h]), List.reverse_reverse]

theorem beValue_lt (bs : List UInt8) : beValue bs < 256 ^ bs.length := by
  have := leValue_lt bs.reverse
  rwa [List.length_reverse] at this

end Cuts

namespace HostFs

open Store Result Wire

variable {buf : List UInt8} {off : Nat}

/-! ## One field -/

theorem bytes32_get32 (h : off + 32 ≤ buf.length) : bytes32 (get32 buf off) = slice buf off 32 := by
  have hlen := length_slice h
  have hlt := beValue_lt (slice buf off 32)
  rw [hlen] at hlt
  rw [bytes32, get32, BitVec.toNat_ofNat, Nat.mod_eq_of_lt (by omega), beBytes_beValue hlen]

theorem get32_of_slice {x : Bytes32} (h : slice buf off 32 = bytes32 x) : get32 buf off = x := by
  have hlt : x.toNat < 256 ^ 32 := by have := x.isLt; omega
  rw [get32, h, bytes32, beValue_beBytes hlt, BitVec.ofNat_toNat, BitVec.setWidth_eq]

theorem le16_getU16 (h : off + 2 ≤ buf.length) : le16 (getU16 buf off) = slice buf off 2 := by
  have hlen := length_slice h
  have hlt := leValue_lt (slice buf off 2)
  rw [hlen] at hlt
  rw [le16, getU16, UInt16.toNat_ofNat', Nat.mod_eq_of_lt (by omega), leBytes_leValue hlen]

theorem getU16_of_slice {v : UInt16} (h : slice buf off 2 = le16 v) : getU16 buf off = v := by
  have hlt : v.toNat < 256 ^ 2 := by have := v.toNat_lt; omega
  rw [getU16, h, le16, leValue_leBytes _ _ hlt, UInt16.ofNat_toNat]

theorem le32_getU32 (h : off + 4 ≤ buf.length) : le32 (getU32 buf off) = slice buf off 4 := by
  have hlen := length_slice h
  have hlt := leValue_lt (slice buf off 4)
  rw [hlen] at hlt
  rw [le32, getU32, UInt32.toNat_ofNat', Nat.mod_eq_of_lt (by omega), leBytes_leValue hlen]

theorem getU32_of_slice {v : UInt32} (h : slice buf off 4 = le32 v) : getU32 buf off = v := by
  have hlt : v.toNat < 256 ^ 4 := by have := v.toNat_lt; omega
  rw [getU32, h, le32, leValue_leBytes _ _ hlt, UInt32.ofNat_toNat]

theorem le64_getU64 (h : off + 8 ≤ buf.length) : le64 (getU64 buf off) = slice buf off 8 := by
  have hlen := length_slice h
  have hlt := leValue_lt (slice buf off 8)
  rw [hlen] at hlt
  rw [le64, getU64, UInt64.toNat_ofNat', Nat.mod_eq_of_lt (by omega), leBytes_leValue hlen]

theorem getU64_of_slice {v : UInt64} (h : slice buf off 8 = le64 v) : getU64 buf off = v := by
  have hlt : v.toNat < 256 ^ 8 := by have := v.toNat_lt; omega
  rw [getU64, h, le64, leValue_leBytes _ _ hlt, UInt64.ofNat_toNat]

theorem slice_one (h : off + 1 ≤ buf.length) : [getU8 buf off] = slice buf off 1 := by
  rw [getU8, slice, List.getD_eq_getElem _ _ (by omega), List.drop_eq_getElem_cons (by omega), List.take_succ_cons,
    List.take_zero]

theorem getU8_of_slice {v : UInt8} (h : slice buf off 1 = [v]) : getU8 buf off = v := by
  have hlen : off < buf.length := by
    by_contra hle
    rw [slice, List.drop_eq_nil_of_le (by omega)] at h
    cases h
  rw [← slice_one hlen] at h
  exact (List.cons.inj h).1

/-! ## The header as its fields -/

def layout : List Nat := [8, 2, 2, 4, 32, 32, 32, 32, 4, 4, 4, 4, 4, 4, 4, 1, 1, 2, 8, 32, 8]

def RecordHeader.fields (r : RecordHeader) : List (List UInt8) :=
  let c := r.chunk
  [magic, le16 formatVersion, le16 recordKindChunk, le32 (.ofNat headerLen), bytes32 c.namespaceId, bytes32 c.chunkKey,
    bytes32 c.parentKey, bytes32 c.modelSha256, le32 c.firstPosition, le32 c.tokenCount, le32 c.chunkTokens,
    le32 c.blockSize, le32 c.numLayers, le32 c.numKvHeads, le32 c.headDim, [c.dtype], [c.backendFormat], le16 c.flags,
    le64 c.payloadLen, bytes32 r.payloadSha256, le64 c.writtenUnixNs]

@[simp] theorem length_bytes32 (x : Bytes32) : (bytes32 x).length = 32 := length_beBytes _ _
@[simp] theorem length_le16 (v : UInt16) : (le16 v).length = 2 := length_leBytes _ _
@[simp] theorem length_le32 (v : UInt32) : (le32 v).length = 4 := length_leBytes _ _
@[simp] theorem length_le64 (v : UInt64) : (le64 v).length = 8 := length_leBytes _ _
@[simp] theorem length_magic : magic.length = 8 := rfl

variable (P : Primitives) {r : RecordHeader}

theorem widths_fields (r : RecordHeader) : r.fields.map List.length = layout := by
  simp [RecordHeader.fields, layout]

theorem length_fields (r : RecordHeader) : r.fields.flatten.length = hashedPrefixLen := by
  rw [List.length_flatten, widths_fields]
  rfl

theorem encodeHashed_eq (r : RecordHeader) : r.encodeHashed = r.fields.flatten ++ List.replicate 32 0 := by
  have hstart : List.replicate headerLen (0 : UInt8) = [] ++ List.replicate headerLen 0 := rfl
  simp only [RecordHeader.encodeHashed, RecordHeader.fields]
  rw [hstart]
  iterate 21 rw [put_zeros (by simp)]
  simp [headerLen]

theorem encode_eq (r : RecordHeader) : r.encode P = r.fields.flatten ++ bytes32 (P.sha r.fields.flatten) := by
  have hlen := length_fields r
  simp only [RecordHeader.encode, encodeHashed_eq]
  rw [List.take_left' hlen, put_zeros hlen, length_bytes32, Nat.sub_self, List.replicate_zero, List.append_nil]

theorem length_encode (r : RecordHeader) : (r.encode P).length = headerLen := by
  rw [encode_eq, List.length_append, length_fields, length_bytes32]
  rfl

/-! ## What is read back -/

def headerOf (buf : List UInt8) : RecordHeader :=
  { chunk :=
      { namespaceId := get32 buf 16
        chunkKey := get32 buf 48
        parentKey := get32 buf 80
        modelSha256 := get32 buf 112
        firstPosition := getU32 buf 144
        tokenCount := getU32 buf 148
        chunkTokens := getU32 buf 152
        blockSize := getU32 buf 156
        numLayers := getU32 buf 160
        numKvHeads := getU32 buf 164
        headDim := getU32 buf 168
        dtype := getU8 buf 172
        backendFormat := getU8 buf 173
        flags := getU16 buf 174
        payloadLen := getU64 buf 176
        writtenUnixNs := getU64 buf 216 }
    payloadSha256 := get32 buf 184 }

/-- The fields of that header are the bytes of the buffer, but for the constants. -/
theorem fields_headerOf (hlen : headerLen ≤ buf.length) (hmagic : slice buf 0 8 = magic)
    (hversion : getU16 buf 8 = formatVersion) (hkind : getU16 buf 10 = recordKindChunk)
    (hheader : getU32 buf 12 = .ofNat headerLen) : (headerOf buf).fields = cuts buf 0 layout := by
  unfold headerLen at hlen
  simp only [RecordHeader.fields, headerOf, layout, cuts, ← hmagic, ← hversion, ← hkind, ← hheader]
  simp (disch := omega) only [bytes32_get32, le16_getU16, le32_getU32, le64_getU64, slice_one]

theorem headerOf_eq (h : cuts buf 0 layout = r.fields) : headerOf buf = r := by
  simp only [layout, cuts, RecordHeader.fields, List.cons.injEq, Nat.reduceAdd] at h
  obtain ⟨-, -, -, -, hns, hkey, hparent, hmodel, hfirst, htokens, hchunk, hblock, hlayers, hheads, hdim, hdtype, hbackend,
    hflags, hpayload, hsha, hwritten, -⟩ := h
  simp only [headerOf, get32_of_slice hns, get32_of_slice hkey, get32_of_slice hparent, get32_of_slice hmodel,
    getU32_of_slice hfirst, getU32_of_slice htokens, getU32_of_slice hchunk, getU32_of_slice hblock,
    getU32_of_slice hlayers, getU32_of_slice hheads, getU32_of_slice hdim, getU8_of_slice hdtype, getU8_of_slice hbackend,
    getU16_of_slice hflags, getU64_of_slice hpayload, get32_of_slice hsha, getU64_of_slice hwritten]

/-- A buffer is accepted as `r` when its fields and its checksum are those of `r` and no reserved bit is set. -/
theorem decodeStruct_ok_iff : decodeStruct P buf = .ok r ↔
    headerLen ≤ buf.length ∧ cuts buf 0 layout = r.fields ∧
    slice buf 224 32 = bytes32 (P.sha (buf.take hashedPrefixLen)) ∧ r.chunk.flags &&& ~~~ flagPartialTail = 0 := by
  constructor
  · intro h
    unfold decodeStruct at h
    split_ifs at h with hlen hmagic hversion hkind hheader hsum hflags
    obtain rfl : headerOf buf = r := Except.ok.inj h
    have hheader' : getU32 buf 12 = .ofNat headerLen := UInt32.toNat_inj.1 (not_not.1 hheader)
    refine ⟨not_lt.1 hlen, ?_, (not_not.1 hsum).symm, not_not.1 hflags⟩
    exact (fields_headerOf (not_lt.1 hlen) (not_not.1 hmagic) (not_not.1 hversion) (not_not.1 hkind) hheader').symm
  · rintro ⟨hlen, hcuts, hsum, hflags⟩
    have hr := headerOf_eq hcuts
    have hflags' : getU16 buf 174 = r.chunk.flags := by rw [← hr]; rfl
    simp only [layout, cuts, RecordHeader.fields, List.cons.injEq, Nat.reduceAdd] at hcuts
    obtain ⟨hmagic, hversion, hkind, hheader, -⟩ := hcuts
    have hsize : (getU32 buf 12).toNat = headerLen := by rw [getU32_of_slice hheader]; rfl
    unfold decodeStruct
    rw [if_neg (not_lt.2 hlen), if_neg (not_not.2 hmagic), if_neg (not_not.2 (getU16_of_slice hversion)),
      if_neg (not_not.2 (getU16_of_slice hkind)), if_neg (not_not.2 hsize), if_neg (not_not.2 hsum.symm), hflags',
      if_neg (not_not.2 hflags), ← hr]
    rfl

/-! ## Both round trips -/

theorem decodeStruct_encode (hflags : r.chunk.flags &&& ~~~ flagPartialTail = 0) :
    decodeStruct P (r.encode P) = .ok r := by
  have hlen := length_fields r
  refine (decodeStruct_ok_iff P).2 ⟨(length_encode P r).ge, ?_, ?_, hflags⟩
  · rw [encode_eq, ← widths_fields r, cuts_flatten]
  · have hsum := slice_at (c := []) hlen (length_bytes32 (P.sha r.fields.flatten))
    rw [List.append_nil] at hsum
    rw [encode_eq, List.take_left' hlen]
    exact hsum

theorem encode_of_decodeStruct (h : decodeStruct P buf = .ok r) : r.encode P = buf.take headerLen := by
  obtain ⟨hlen, hcuts, hsum, -⟩ := (decodeStruct_ok_iff P).1 h
  have hfields : r.fields.flatten = buf.take hashedPrefixLen := by
    rw [← hcuts, flatten_cuts]
    rfl
  rw [encode_eq, hfields, ← hsum]
  exact (take_slice buf hashedPrefixLen 32).symm

/-- Every header without reserved flag bits is read back from its bytes, and what is accepted as a header is its byte
form: two buffers that are read as one header agree on their first 256 bytes. -/
theorem record_header_codec (P : Primitives) :
    (∀ r : RecordHeader, r.chunk.flags &&& ~~~ flagPartialTail = 0 → decodeStruct P (r.encode P) = .ok r) ∧
    (∀ (buf : List UInt8) (r : RecordHeader), decodeStruct P buf = .ok r → r.encode P = buf.take headerLen) ∧
    (∀ (buf buf' : List UInt8) (r : RecordHeader), decodeStruct P buf = .ok r → decodeStruct P buf' = .ok r →
      buf.take headerLen = buf'.take headerLen) := by
  refine ⟨fun r => decodeStruct_encode P, fun buf r => encode_of_decodeStruct P, fun buf buf' r h h' => ?_⟩
  rw [← encode_of_decodeStruct P h, ← encode_of_decodeStruct P h']

def partialHeader : RecordHeader :=
  { chunk :=
      { namespaceId := 1, chunkKey := 2, parentKey := 0, modelSha256 := 3, firstPosition := 256, tokenCount := 3
        chunkTokens := 256, blockSize := 16, numLayers := 2, numKvHeads := 1, headDim := 8, dtype := 1, backendFormat := 1
        flags := 1, payloadLen := 512, writtenUnixNs := 7 }
    payloadSha256 := 4 }

theorem record_header_codec_partial :
    let P : Primitives := ⟨fun bs => .ofNat 256 bs.length, fun _ _ _ => none, fun _ _ _ _ => none⟩
    decodeStruct P (partialHeader.encode P) = .ok partialHeader ∧
      partialHeader.encode P = (partialHeader.encode P).take headerLen := by
  intro P
  have hdecode := (record_header_codec P).1 partialHeader (by decide)
  exact ⟨hdecode, (record_header_codec P).2.1 _ _ hdecode⟩

end HostFs

end SovereignCore
