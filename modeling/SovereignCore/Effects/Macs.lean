import SovereignCore.Effects.Calls
import SovereignCore.Lib.Text

/-!
# What the desk key authenticates

The three kinds of byte strings that `approved_auth.rs` puts under one desk key. A binding is a compact JSON object with
sorted keys; the requirements message and the authorize message start with a domain tag.

* `bindingBytes`, `requirementsBytes`, `authorizeBindingBytes` : the byte strings; `Message.macInput` : all of them;
* `Message.NulInside` : a requirements message whose goal or base holds a NUL; `macInput_unambiguous` : these are the
  messages that share their bytes with another one.
-/

namespace SovereignCore.Effects

open SovereignCore.Json SovereignCore.Text

/-! ## The bindings -/

def approvalBindingVersion : String := "aien.approval.v2"

/-- The members of the approval binding, in the order of their keys. -/
def ApprovalIdentity.fields (id : ApprovalIdentity) : List (String × Value) :=
  [("approval_id", .str id.approvalId), ("approved_proposal_sha256", .str id.approvedProposalSha256),
    ("approver", .str id.approver), ("content_sha256", .str id.contentSha256), ("desk_key_id", .str id.deskKeyId),
    ("path", .str id.path), ("request_id", .str id.requestId), ("trace_id", .str id.traceId),
    ("v", .str approvalBindingVersion), ("workspace", .str id.workspace)]

def bindingBytes (id : ApprovalIdentity) : List UInt8 := utf8 (String.ofList (writeObject writeRow id.fields))

def requirementsTag (base : Option String) : String :=
  if base.isSome then "aien.requirements.v2\x00" else "aien.requirements.v1\x00"

def goalBytes : Option String → List UInt8
  | none => [0]
  | some g => 1 :: utf8 g

def baseBytes : Option String → List UInt8
  | none => []
  | some b => 0 :: utf8 b

def requirementsBytes (id : ApprovalIdentity) (goal base : Option String) : List UInt8 :=
  utf8 (requirementsTag base) ++ bindingBytes id ++ [0] ++ goalBytes goal ++ baseBytes base

def authorizeBindingVersion : String := "aien.authorize.v1"

def AuthorizeBinding.fields (b : AuthorizeBinding) : List (String × Value) :=
  [("approver", .str b.approver), ("constraints", .arr (b.constraints.map .num)),
    ("content_sha256", .str b.contentSha256), ("cx_promotion", .num b.cxPromotion), ("desk_key_id", .str b.deskKeyId),
    ("nonce", .str b.nonce), ("path", .str b.path), ("proposal_sha256", .str b.proposalSha256),
    ("v", .str authorizeBindingVersion), ("workspace", .str b.workspace)]

def authorizeTag : String := "aien.authorize.mac\x00"

def authorizeBindingBytes (b : AuthorizeBinding) : List UInt8 :=
  utf8 authorizeTag ++ utf8 (String.ofList (writeObject writeRow b.fields))

/-- A message under the desk key. -/
inductive Message
  | approval (id : ApprovalIdentity)
  | requirements (id : ApprovalIdentity) (goal base : Option String)
  | authorize (b : AuthorizeBinding)

def Message.macInput : Message → List UInt8
  | approval id => bindingBytes id
  | requirements id goal base => requirementsBytes id goal base
  | authorize b => authorizeBindingBytes b

/-! ## The messages as texts -/

def goalText : Option String → List Char
  | none => ['\x00']
  | some g => '\x01' :: g.toList

def baseText : Option String → List Char
  | none => []
  | some b => '\x00' :: b.toList

def Message.text : Message → List Char
  | approval id => writeObject writeRow id.fields
  | requirements id goal base =>
    (requirementsTag base).toList ++ (writeObject writeRow id.fields ++ '\x00' :: (goalText goal ++ baseText base))
  | authorize b => authorizeTag.toList ++ writeObject writeRow b.fields

theorem goalBytes_eq (goal : Option String) : goalBytes goal = (goalText goal).flatMap String.utf8EncodeChar := by
  cases goal with
  | none => rfl
  | some g => rfl

theorem baseBytes_eq (base : Option String) : baseBytes base = (baseText base).flatMap String.utf8EncodeChar := by
  cases base with
  | none => rfl
  | some b => rfl

theorem macInput_eq (m : Message) : m.macInput = utf8 (String.ofList m.text) := by
  rw [utf8_ofList]
  cases m with
  | approval id => exact utf8_ofList _
  | requirements id goal base =>
    have hnul : ([0] : List UInt8) = ['\x00'].flatMap String.utf8EncodeChar := rfl
    simp only [Message.macInput, requirementsBytes, Message.text, bindingBytes, goalBytes_eq, baseBytes_eq, hnul, utf8,
      String.toList_ofList, List.flatMap_append, List.append_assoc, List.flatMap_cons, List.flatMap_nil, List.append_nil]
  | authorize b =>
    simp only [Message.macInput, authorizeBindingBytes, Message.text, utf8, String.toList_ofList, List.flatMap_append]

theorem macInput_inj {m m' : Message} : m.macInput = m'.macInput ↔ m.text = m'.text := by
  rw [macInput_eq, macInput_eq, utf8_inj, String.ofList_inj]

/-! ## Which messages share their bytes -/

theorem ApprovalIdentity.fields_row (id : ApprovalIdentity) : ∀ f ∈ id.fields, f.2.row = true := by
  simp [ApprovalIdentity.fields, Value.row, Value.scalar]

theorem AuthorizeBinding.fields_row (b : AuthorizeBinding) : ∀ f ∈ b.fields, f.2.row = true := by
  simp [AuthorizeBinding.fields, Value.row, Value.scalar]

theorem ApprovalIdentity.fields_inj {id id' : ApprovalIdentity} (h : id.fields = id'.fields) : id = id' := by
  cases id
  cases id'
  simp only [ApprovalIdentity.fields, List.cons.injEq, Prod.mk.injEq, Value.str.injEq, true_and] at h
  simp [h]

theorem AuthorizeBinding.fields_inj {b b' : AuthorizeBinding} (h : b.fields = b'.fields) : b = b' := by
  cases b
  cases b'
  simp only [AuthorizeBinding.fields, List.cons.injEq, Prod.mk.injEq, Value.str.injEq, Value.num.injEq,
    Value.arr.injEq, true_and] at h
  have hmap : Function.Injective (List.map Value.num) := List.map_injective_iff.2 fun _ _ h => Value.num.inj h
  simp [h, hmap.eq_iff.1 h.2.1]

theorem requirements_text_inj {id id' : ApprovalIdentity} {goal goal' base base' : Option String}
    (h : (Message.requirements id goal base).text = (Message.requirements id' goal' base').text) :
    id = id' ∧ base.isSome = base'.isSome ∧ goalText goal ++ baseText base = goalText goal' ++ baseText base' := by
  have htag : base.isSome = base'.isSome := by
    cases base <;> cases base'
    · rfl
    · simp [Message.text, requirementsTag] at h
    · simp [Message.text, requirementsTag] at h
    · rfl
  simp only [Message.text, requirementsTag, htag] at h
  obtain ⟨hf, hrest⟩ := writeObject_cancel id.fields_row id'.fields_row (List.append_cancel_left h)
  exact ⟨ApprovalIdentity.fields_inj hf, htag, (List.cons.inj hrest).2⟩

def Message.NulInside : Message → Prop
  | requirements _ (some g) (some b) => '\x00' ∈ g.toList ∨ '\x00' ∈ b.toList
  | _ => False

/-- With no NUL in goal and base, the NUL between them is the only one. -/
theorem tail_inj {id : ApprovalIdentity} {goal goal' base base' : Option String}
    (hm : ¬ (Message.requirements id goal base).NulInside) (hsome : base'.isSome = base.isSome)
    (h : goalText goal' ++ baseText base' = goalText goal ++ baseText base) : goal' = goal ∧ base' = base := by
  rcases base with _ | b <;> rcases base' with _ | b' <;> simp only [Option.isSome, reduceCtorEq] at hsome
  · rcases goal with _ | g <;> rcases goal' with _ | g' <;> simp [goalText, baseText] at h
    · exact ⟨rfl, rfl⟩
    · exact ⟨congrArg some (String.toList_inj.1 h), rfl⟩
  · rcases goal with _ | g <;> rcases goal' with _ | g' <;> simp [goalText, baseText] at h
    · exact ⟨rfl, congrArg some (String.toList_inj.1 h)⟩
    · rw [Message.NulInside, not_or] at hm
      have hcut := (List.append_cons_inj_of_notMem hm.1 hm.2).1 h.symm
      exact ⟨congrArg some (String.toList_inj.1 hcut.1.symm), congrArg some (String.toList_inj.1 hcut.2.2.symm)⟩

theorem text_inj {m m' : Message} (hm : ¬ m.NulInside) (h : m'.text = m.text) : m' = m := by
  cases m with
  | approval id =>
    cases m' with
    | approval id' =>
      have hobj := writeObject_cancel id'.fields_row id.fields_row
        (show writeObject writeRow id'.fields ++ [] = writeObject writeRow id.fields ++ [] by simpa [Message.text] using h)
      rw [ApprovalIdentity.fields_inj hobj.1]
    | requirements id' goal' base' => cases base' <;> simp [Message.text, requirementsTag, writeObject] at h
    | authorize b' => simp [Message.text, authorizeTag, writeObject] at h
  | authorize b =>
    cases m' with
    | approval id' => simp [Message.text, authorizeTag, writeObject] at h
    | requirements id' goal' base' => cases base' <;> simp [Message.text, requirementsTag, authorizeTag] at h
    | authorize b' =>
      have hobj := writeObject_cancel b'.fields_row b.fields_row
        (show writeObject writeRow b'.fields ++ [] = writeObject writeRow b.fields ++ [] by
          simpa using List.append_cancel_left h)
      rw [AuthorizeBinding.fields_inj hobj.1]
  | requirements id goal base =>
    cases m' with
    | approval id' => cases base <;> simp [Message.text, requirementsTag, writeObject] at h
    | authorize b' => cases base <;> simp [Message.text, requirementsTag, authorizeTag] at h
    | requirements id' goal' base' =>
      obtain ⟨rfl, hsome, htail⟩ := requirements_text_inj h
      obtain ⟨rfl, rfl⟩ := tail_inj hm hsome htail
      rfl

/-- A NUL inside the goal or the base can be taken for the one between them. -/
theorem exists_same_text {m : Message} (hm : m.NulInside) : ∃ m' : Message, m'.text = m.text ∧ m' ≠ m := by
  match m, hm with
  | .requirements id (some g) (some b), hm =>
    rcases hm with hg | hb
    · obtain ⟨s, t, hst⟩ := List.append_of_mem hg
      refine ⟨.requirements id (some (String.ofList s)) (some (String.ofList (t ++ '\x00' :: b.toList))), ?_, ?_⟩
      · simp [Message.text, requirementsTag, goalText, baseText, hst]
      · intro he
        simp only [Message.requirements.injEq, Option.some.injEq, true_and] at he
        have hlen := congrArg (List.length ∘ String.toList) he.1
        simp [hst] at hlen
    · obtain ⟨s, t, hst⟩ := List.append_of_mem hb
      refine ⟨.requirements id (some (String.ofList (g.toList ++ '\x00' :: s))) (some (String.ofList t)), ?_, ?_⟩
      · simp [Message.text, requirementsTag, goalText, baseText, hst]
      · intro he
        simp only [Message.requirements.injEq, Option.some.injEq, true_and] at he
        have hlen := congrArg (List.length ∘ String.toList) he.1
        simp at hlen

/-- No other message, of any kind, has the bytes of `m`, exactly when `m` is no requirements message with a goal and a
base of which one holds a NUL. -/
theorem macInput_unambiguous (m : Message) : (∀ m' : Message, m'.macInput = m.macInput → m' = m) ↔ ¬ m.NulInside := by
  constructor
  · intro h hm
    obtain ⟨m', htext, hne⟩ := exists_same_text hm
    exact hne (h m' (macInput_inj.2 htext))
  · intro hm m' h
    exact text_inj hm (macInput_inj.1 h)

def exampleIdentity : ApprovalIdentity where
  traceId := "trace-1"
  requestId := "req-1"
  approvalId := "appr-1"
  approver := "operator"
  path := "NOTES.md"
  contentSha256 := "c0"
  approvedProposalSha256 := "a0"
  deskKeyId := "k0"
  workspace := "/work"

/-- The bytes signed for a goal with a NUL in it are those of the goal that ends there, on a longer base. -/
theorem macInput_two_goals : ¬ ∀ m m' : Message, m.macInput = m'.macInput → m = m' := by
  intro h
  have htail : goalText (some "Add one line\x00 or two") ++ baseText (some "absent") =
      goalText (some "Add one line") ++ baseText (some " or two\x00absent") := by decide +kernel
  have he := h (.requirements exampleIdentity (some "Add one line\x00 or two") (some "absent"))
    (.requirements exampleIdentity (some "Add one line") (some " or two\x00absent"))
    (macInput_inj.2 (by simp only [Message.text, requirementsTag, Option.isSome_some, htail]))
  simp at he

end SovereignCore.Effects
