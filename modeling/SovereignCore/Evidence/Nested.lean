import SovereignCore.Evidence.Verdicts

/-!
# Nested gates

A requirement may name another gate. The evaluation follows the names with the path so far as its guard against cycles,
and takes the worst line. It ends, because a name is entered at most once on a path and a manifest must load under it.

* `manifestOf`, `Refers`, `Inside` : the graph of the gates behind a gate;
* `Settled`, `LineOf` : the report of a gate and the line of a requirement, whatever the fuel above what is needed;
* `Entered.step`, `Entered.no_return` : a report that is not FAIL leaves no way back to the path;
* `gate_evaluation_exact` : the evaluation ends; it is PASS exactly when everything inside is in order, and a cycle is FAIL.
-/

namespace SovereignCore.Evidence

open Text Relation

/-! ## The graph of the gates -/

/-- The manifest behind a name when `g` is evaluated: `g` itself under its own name. -/
def manifestOf (manifests : Manifests) (g : Gate) (name : String) : Except String Gate :=
  if name = g.gate then .ok g else loadManifest manifests name

/-- A requirement of `x` names the gate `y`. -/
def Refers (manifests : Manifests) (g : Gate) (x y : String) : Prop :=
  ∃ m, manifestOf manifests g x = .ok m ∧ ∃ req ∈ m.requires, req.gateRef = some y

/-- The gate is `g` or is reached from it. -/
def Inside (manifests : Manifests) (g : Gate) (x : String) : Prop := ReflTransGen (Refers manifests g) g.gate x

/-- The requirement is judged without another gate: it names none, or names a kind as well and fails for that. -/
def Requirement.Leaf (req : Requirement) : Prop := req.gateRef = none ∨ req.kind ≠ ""

section Functions

variable (blake : List UInt8 → Digest) (c : LineCodec) (S : Store)

/-- The line of a leaf is PASS, whatever the fuel from some point on. -/
def LeafPasses (req : Requirement) : Prop :=
  ∃ n, ∀ fuel, n ≤ fuel →
    (evalRequirement blake c (fun _ _ => none) fuel S [] [] req).map (·.status) = some .pass

/-- No cycle, every manifest loads and has requirements, and every leaf passes. -/
structure GateSound (manifests : Manifests) (g : Gate) : Prop where
  acyclic : ∀ x, Inside manifests g x → ¬ TransGen (Refers manifests g) x x
  loads : ∀ x, Inside manifests g x → ∃ m, manifestOf manifests g x = .ok m ∧ m.requires ≠ []
  leaves : ∀ x m, Inside manifests g x → manifestOf manifests g x = .ok m → ∀ req ∈ m.requires, req.Leaf →
    LeafPasses blake c S req

variable (manifests : Manifests) (stack : List String)

/-- The report of the gate on this path, with fuel for the receipts and for the manifests that are not on the path. -/
def Settled (m : Gate) (r : GateReport) : Prop :=
  ∀ fuel depth, S.mentioned.card < fuel → (openManifests manifests stack).card < depth →
    evaluateInner blake c fuel S manifests depth m stack = some r

def LineOf (req : Requirement) (line : GateLine) : Prop :=
  ∀ fuel depth, S.mentioned.card < fuel → (openManifests manifests stack).card ≤ depth →
    evalRequirement blake c (evaluateInner blake c fuel S manifests depth) fuel S manifests stack req = some line

end Functions

variable {blake : List UInt8 → Digest} {c : LineCodec} {S : Store} {manifests : Manifests} {g m : Gate}
  {stack : List String} {req : Requirement} {line : GateLine} {r : GateReport}

/-! ## The worst line -/

theorem worse_pass {a b : Verdict} : worse a b = .pass ↔ a = .pass ∧ b = .pass := by
  cases a <;> cases b <;> decide

theorem worse_fail {a b : Verdict} : worse a b = .fail ↔ a = .fail ∨ b = .fail := by
  cases a <;> cases b <;> decide

theorem foldl_worse_pass (ls : List GateLine) (v : Verdict) :
    ls.foldl (fun status line => worse status line.status) v = .pass ↔ v = .pass ∧ ∀ l ∈ ls, l.status = .pass := by
  induction ls generalizing v with
  | nil => simp
  | cons l ls ih => rw [List.foldl_cons, ih, worse_pass, List.forall_mem_cons, and_assoc]

theorem foldl_worse_fail (ls : List GateLine) (v : Verdict) :
    ls.foldl (fun status line => worse status line.status) v = .fail ↔ v = .fail ∨ ∃ l ∈ ls, l.status = .fail := by
  induction ls generalizing v with
  | nil => simp
  | cons l ls ih =>
    rw [List.foldl_cons, ih, worse_fail, or_assoc]
    simp

theorem gateReport_pass {ls : List GateLine} :
    (gateReport m ls).status = .pass ↔ m.requires ≠ [] ∧ ∀ l ∈ ls, l.status = .pass := by
  unfold gateReport
  dsimp only
  split_ifs with hempty
  · simp [hempty]
  · rw [foldl_worse_pass]
    simp [hempty]

theorem gateReport_fail {ls : List GateLine} (hne : m.requires ≠ []) :
    (gateReport m ls).status = .fail ↔ ∃ l ∈ ls, l.status = .fail := by
  unfold gateReport
  dsimp only
  rw [if_neg hne, foldl_worse_fail]
  simp

/-! ## Enough fuel -/

theorem verifyChain_settles (blake : List UInt8 → Digest) (c : LineCodec) (S : Store) (name : String) :
    ∃ r, ∀ fuel, S.mentioned.card < fuel → verifyChain blake c fuel name S = some r := by
  unfold verifyChain
  generalize hroot : (do
    let text ← orError s!"cannot read {name}" (S.file name)
    verifyWithStore blake c text S : Except String (Receipt × Report)) = root
  cases root with
  | error e => exact ⟨_, fun _ _ => rfl⟩
  | ok p =>
    obtain ⟨root, rootReport⟩ := p
    obtain ⟨text, htext, hverify⟩ := Result.bind_ok.1 hroot
    have hfile : S.file name = some (.ok root) := by
      cases hf : S.file name with
      | none =>
        rw [hf] at htext
        cases htext
      | some t =>
        rw [hf] at htext
        rw [Except.ok.inj htext, verifyWithStore_ok hverify]
    have hbelow : ∀ x, Below (storeResolver blake c S) root x → x ∈ S.mentioned := fun x hx => below_mentioned hfile hx
    obtain ⟨report, hrun, -⟩ := chain_outcome (leaseStatus c · S) rootReport hbelow (Nat.lt_succ_self _)
    refine ⟨.ok report, fun fuel hfuel => ?_⟩
    dsimp only
    rw [verifyGraph_mono hfuel hrun]
    rfl

theorem evalKind_settles (blake : List UInt8 → Digest) (c : LineCodec) (S : Store) (req : Requirement) :
    ∃ line, ∀ fuel, S.mentioned.card < fuel → evalKind blake c fuel S req = some line := by
  unfold evalKind
  cases bestCandidate blake S req.kind with
  | none => exact ⟨_, fun _ _ => rfl⟩
  | some receipt =>
    dsimp only
    cases checkReceipt c S req receipt with
    | error line => exact ⟨line, fun _ _ => rfl⟩
    | ok _ =>
      obtain ⟨chain, hchain⟩ := verifyChain_settles blake c S (fileName receipt.id)
      refine ⟨chainLine req receipt chain, fun fuel hfuel => ?_⟩
      dsimp only
      rw [hchain fuel hfuel]
      rfl

/-- The line of a leaf depends neither on the path nor on the manifests. -/
theorem leaf_settles (blake : List UInt8 → Digest) (c : LineCodec) (S : Store) (hleaf : req.Leaf) :
    ∃ line, ∀ fuel, S.mentioned.card < fuel → ∀ inner manifests stack,
      evalRequirement blake c inner fuel S manifests stack req = some line := by
  unfold evalRequirement
  cases href : req.gateRef with
  | some child =>
    have hkind : req.kind ≠ "" := hleaf.resolve_left (by simp [href])
    refine ⟨req.line .fail "manifest requirement cannot name both a gate and receipt kind",
      fun fuel _ inner manifests stack => ?_⟩
    dsimp only
    rw [if_pos hkind]
  | none =>
    dsimp only
    by_cases hkind : req.kind = ""
    · refine ⟨req.line .fail "manifest requirement has neither gate_ref nor receipt kind",
        fun fuel _ inner manifests stack => ?_⟩
      rw [if_pos hkind]
    · obtain ⟨line, hline⟩ := evalKind_settles blake c S req
      refine ⟨line, fun fuel hfuel inner manifests stack => ?_⟩
      rw [if_neg hkind, hline fuel hfuel]

theorem leaf_line (blake : List UInt8 → Digest) (c : LineCodec) (S : Store) (manifests : Manifests)
    (stack : List String) (hleaf : req.Leaf) :
    ∃ line, LineOf blake c S manifests stack req line ∧ (line.status = .pass ↔ LeafPasses blake c S req) := by
  obtain ⟨line, hline⟩ := leaf_settles blake c S hleaf
  refine ⟨line, fun fuel depth hfuel _ => hline fuel hfuel _ _ _, fun hpass => ?_, fun ⟨n, hn⟩ => ?_⟩
  · refine ⟨S.mentioned.card + 1, fun fuel hfuel => ?_⟩
    rw [hline fuel hfuel, Option.map_some, hpass]
  · have hrun := hn (max n (S.mentioned.card + 1)) (le_max_left _ _)
    rw [hline _ (Nat.lt_of_succ_le (le_max_right _ _)), Option.map_some] at hrun
    exact Option.some.inj hrun

/-! ## The line of a nested gate -/

theorem LineOf.unique {line' : GateLine} (h : LineOf blake c S manifests stack req line)
    (h' : LineOf blake c S manifests stack req line') : line = line' :=
  Option.some.inj ((h _ _ (Nat.lt_succ_self _) (Nat.le_refl _)).symm.trans
    (h' _ _ (Nat.lt_succ_self _) (Nat.le_refl _)))

section Lines

variable (blake : List UInt8 → Digest) (c : LineCodec) (S : Store)

theorem line_both {child : String} (manifests : Manifests) (stack : List String) (href : req.gateRef = some child)
    (hkind : req.kind ≠ "") : ∃ line, LineOf blake c S manifests stack req line ∧ line.status = .fail := by
  refine ⟨req.line .fail "manifest requirement cannot name both a gate and receipt kind", fun fuel depth _ _ => ?_, rfl⟩
  unfold evalRequirement
  rw [href]
  dsimp only
  rw [if_pos hkind]

theorem line_cycle {child : String} (manifests : Manifests) (href : req.gateRef = some child) (hmem : child ∈ stack) :
    ∃ line, LineOf blake c S manifests stack req line ∧ line.status = .fail := by
  by_cases hkind : req.kind ≠ ""
  · exact line_both blake c S manifests stack href hkind
  · refine ⟨req.line .fail s!"gate dependency cycle through {child}", fun fuel depth _ _ => ?_, rfl⟩
    unfold evalRequirement
    rw [href]
    dsimp only
    rw [if_neg hkind, if_pos hmem]

theorem line_unloaded {child e : String} (href : req.gateRef = some child) (hkind : req.kind = "")
    (hnew : child ∉ stack) (hload : loadManifest manifests child = .error e) :
    ∃ line, LineOf blake c S manifests stack req line ∧ line.status = .blocked := by
  refine ⟨req.line .blocked s!"BLOCKED {child}: {e}", fun fuel depth _ _ => ?_, rfl⟩
  unfold evalRequirement
  rw [href]
  dsimp only
  rw [if_neg (not_not.2 hkind), if_neg hnew, hload]

end Lines

/-- A gate that is entered: the line has the status of its report. -/
theorem line_nested {child : String} (href : req.gateRef = some child) (hkind : req.kind = "") (hnew : child ∉ stack)
    (hload : loadManifest manifests child = .ok m) (hr : Settled blake c S manifests (stack ++ [child]) m r) :
    ∃ line, LineOf blake c S manifests stack req line ∧ line.status = r.status := by
  refine ⟨nestedLine req child r, fun fuel depth hfuel hdepth => ?_, rfl⟩
  have hlt := openManifests_lt (loadManifest_ok hload).2 hnew
  unfold evalRequirement
  rw [href]
  dsimp only
  rw [if_neg (not_not.2 hkind), if_neg hnew, hload]
  dsimp only
  rw [hr fuel depth hfuel (Nat.lt_of_lt_of_le hlt hdepth)]
  rfl

/-! ## Every gate has a report -/

theorem mapM_of_lines {reqs : List Requirement} {f : Requirement → Option GateLine} {ls : List GateLine}
    (h : List.Forall₂ (fun req l => f req = some l) reqs ls) : reqs.mapM f = some ls := by
  induction h with
  | nil => rfl
  | cons hreq _ ih =>
    rw [List.mapM_cons, hreq, ih]
    rfl

theorem exists_forall₂ {α β : Type} {R : α → β → Prop} : ∀ {l : List α}, (∀ a ∈ l, ∃ b, R a b) → ∃ l', List.Forall₂ R l l'
  | [], _ => ⟨[], .nil⟩
  | a :: l, h => by
    obtain ⟨⟨b, hb⟩, hl⟩ := List.forall_mem_cons.1 h
    obtain ⟨l', hl'⟩ := exists_forall₂ hl
    exact ⟨b :: l', .cons hb hl'⟩

theorem settled_of_lines {ls : List GateLine} (h : List.Forall₂ (LineOf blake c S manifests stack) m.requires ls) :
    Settled blake c S manifests stack m (gateReport m ls) := by
  intro fuel depth hfuel hdepth
  obtain ⟨d, rfl⟩ := Nat.exists_eq_succ_of_ne_zero (Nat.ne_of_gt (Nat.zero_lt_of_lt hdepth))
  have hlines : List.Forall₂ (fun req l => evalRequirement blake c (evaluateInner blake c fuel S manifests d) fuel S
      manifests stack req = some l) m.requires ls := h.imp fun req l hl => hl fuel d hfuel (Nat.le_of_lt_succ hdepth)
  unfold evaluateInner
  rw [mapM_of_lines hlines]
  rfl

/-- The lines of every gate exist: a nested one is entered with fewer open manifests. -/
theorem exists_lines (blake : List UInt8 → Digest) (c : LineCodec) (S : Store) (manifests : Manifests) : ∀ (n : Nat)
    {stack : List String}, (openManifests manifests stack).card = n → ∀ m : Gate,
      ∃ ls, List.Forall₂ (LineOf blake c S manifests stack) m.requires ls := by
  intro n
  induction n using Nat.strong_induction_on with
  | _ n ih =>
    intro stack hn m
    apply exists_forall₂
    intro req _
    by_cases hleaf : req.Leaf
    · obtain ⟨line, hline, -⟩ := leaf_line blake c S manifests stack hleaf
      exact ⟨line, hline⟩
    · obtain ⟨href, hkind⟩ := not_or.1 hleaf
      obtain ⟨child, href⟩ := Option.ne_none_iff_exists'.1 href
      by_cases hmem : child ∈ stack
      · obtain ⟨line, hline, -⟩ := line_cycle blake c S manifests href hmem
        exact ⟨line, hline⟩
      · cases hload : loadManifest manifests child with
        | error e =>
          obtain ⟨line, hline, -⟩ := line_unloaded blake c S href (not_not.1 hkind) hmem hload
          exact ⟨line, hline⟩
        | ok child' =>
          have hlt := openManifests_lt (loadManifest_ok hload).2 hmem
          obtain ⟨ls, hls⟩ := ih _ (hn ▸ hlt) rfl child'
          obtain ⟨line, hline, -⟩ := line_nested href (not_not.1 hkind) hmem hload (settled_of_lines hls)
          exact ⟨line, hline⟩

theorem exists_settled (blake : List UInt8 → Digest) (c : LineCodec) (S : Store) (manifests : Manifests)
    (stack : List String) (m : Gate) : ∃ r, Settled blake c S manifests stack m r := by
  obtain ⟨ls, hls⟩ := exists_lines blake c S manifests _ rfl m
  exact ⟨_, settled_of_lines hls⟩

theorem Settled.unique {r' : GateReport} (h : Settled blake c S manifests stack m r)
    (h' : Settled blake c S manifests stack m r') : r = r' :=
  Option.some.inj ((h _ _ (Nat.lt_succ_self _) (Nat.lt_succ_self _)).symm.trans
    (h' _ _ (Nat.lt_succ_self _) (Nat.lt_succ_self _)))

theorem Settled.lines (h : Settled blake c S manifests stack m r) :
    (r.status = .pass ↔ m.requires ≠ [] ∧ ∀ req ∈ m.requires, ∀ line, LineOf blake c S manifests stack req line →
      line.status = .pass) ∧
    (∀ req ∈ m.requires, ∀ line, LineOf blake c S manifests stack req line → line.status = .fail → r.status = .fail) := by
  obtain ⟨ls, hls⟩ := exists_lines blake c S manifests _ rfl m
  rw [h.unique (settled_of_lines hls)]
  have hline : ∀ req ∈ m.requires, ∃ l ∈ ls, LineOf blake c S manifests stack req l := by
    intro req hreq
    obtain ⟨i, hi, rfl⟩ := List.getElem_of_mem hreq
    have hi' : i < ls.length := hls.length_eq ▸ hi
    exact ⟨ls[i], List.getElem_mem hi', hls.get hi hi'⟩
  have hreq : ∀ l ∈ ls, ∃ req ∈ m.requires, LineOf blake c S manifests stack req l := by
    intro l hl
    obtain ⟨i, hi, rfl⟩ := List.getElem_of_mem hl
    have hi' : i < m.requires.length := hls.length_eq ▸ hi
    exact ⟨m.requires[i], List.getElem_mem hi', hls.get hi' hi⟩
  constructor
  · rw [gateReport_pass]
    refine and_congr_right fun _ => ⟨fun hall req hr line hl => ?_, fun hall l hl => ?_⟩
    · obtain ⟨l, hmem, hl'⟩ := hline req hr
      rw [hl.unique hl']
      exact hall l hmem
    · obtain ⟨req, hr, hl'⟩ := hreq l hl
      exact hall req hr l hl'
  · intro req hr line hl hfail
    obtain ⟨l, hmem, hl'⟩ := hline req hr
    rw [gateReport_fail (List.ne_nil_of_mem hr)]
    exact ⟨l, hmem, hl'.unique hl ▸ hfail⟩

/-! ## Gates that are entered -/

/-- The gate is evaluated on this path, which begins with `g`, and its report is not FAIL. -/
structure Entered (blake : List UInt8 → Digest) (c : LineCodec) (S : Store) (manifests : Manifests) (g : Gate)
    (stack : List String) (x : String) (m : Gate) (r : GateReport) : Prop where
  loads : manifestOf manifests g x = .ok m
  settled : Settled blake c S manifests stack m r
  sound : r.status ≠ .fail
  root : g.gate ∈ stack

variable {x y : String} {m' : Gate}

theorem manifestOf_new (hroot : g.gate ∈ stack) (hnew : y ∉ stack) : manifestOf manifests g y = loadManifest manifests y := by
  unfold manifestOf
  rw [if_neg]
  rintro rfl
  exact hnew hroot

/-- A gate that is named is not on the path; when it loads, it is evaluated on the longer path. -/
theorem Entered.step (h : Entered blake c S manifests g stack x m r) (hreq : req ∈ m.requires)
    (href : req.gateRef = some y) : y ∉ stack ∧ req.kind = "" ∧ ∀ m', manifestOf manifests g y = .ok m' →
      ∃ r', Entered blake c S manifests g (stack ++ [y]) y m' r' ∧ (r.status = .pass → r'.status = .pass) := by
  have hnew : y ∉ stack := by
    intro hmem
    obtain ⟨line, hline, hfail⟩ := line_cycle blake c S manifests href hmem
    exact h.sound (h.settled.lines.2 req hreq line hline hfail)
  have hkind : req.kind = "" := by
    by_contra hkind
    obtain ⟨line, hline, hfail⟩ := line_both blake c S manifests stack href hkind
    exact h.sound (h.settled.lines.2 req hreq line hline hfail)
  refine ⟨hnew, hkind, fun m' hload => ?_⟩
  have hload' : loadManifest manifests y = .ok m' := manifestOf_new h.root hnew ▸ hload
  obtain ⟨r', hr'⟩ := exists_settled blake c S manifests (stack ++ [y]) m'
  obtain ⟨line, hline, hstatus⟩ := line_nested href hkind hnew hload' hr'
  refine ⟨r', ⟨hload, hr', fun hfail => ?_, List.mem_append_left _ h.root⟩, fun hpass => ?_⟩
  · exact h.sound (h.settled.lines.2 req hreq line hline (hstatus.trans hfail))
  · rw [← hstatus]
    exact (h.settled.lines.1.1 hpass).2 req hreq line hline

/-- From a gate that is evaluated without FAIL no walk comes back to the path. -/
theorem Entered.no_return (hxy : TransGen (Refers manifests g) x y) : ∀ {stack : List String} {m : Gate} {r : GateReport},
    Entered blake c S manifests g stack x m r → y ∉ stack := by
  induction hxy using TransGen.head_induction_on with
  | single hxy =>
    intro stack m r h
    obtain ⟨m', hm', req, hreq, href⟩ := hxy
    cases Except.ok.inj (h.loads.symm.trans hm')
    exact (h.step hreq href).1
  | head hxz hzy ih =>
    intro stack m r h
    obtain ⟨m', hm', req, hreq, href⟩ := hxz
    cases Except.ok.inj (h.loads.symm.trans hm')
    -- the gate in between names another one, so its manifest loads
    obtain ⟨w, ⟨m'', hm'', -⟩, -⟩ := TransGen.head'_iff.1 hzy
    obtain ⟨r', hr', -⟩ := (h.step hreq href).2.2 m'' hm''
    exact fun hmem => ih hr' (List.mem_append_left _ hmem)

/-- Every gate inside that loads is evaluated on some path that ends with it, when the report on `g` is not FAIL. -/
theorem entered_inside (hr : Settled blake c S manifests [g.gate] g r) (hsound : r.status ≠ .fail)
    (hx : Inside manifests g x) : ∀ m, manifestOf manifests g x = .ok m → ∃ stack r',
      Entered blake c S manifests g stack x m r' ∧ x ∈ stack ∧ (r.status = .pass → r'.status = .pass) := by
  have hroot : manifestOf manifests g g.gate = .ok g := if_pos rfl
  induction hx with
  | refl =>
    intro m hm
    cases Except.ok.inj (hroot.symm.trans hm)
    exact ⟨[g.gate], r, ⟨hroot, hr, hsound, List.mem_singleton_self _⟩, List.mem_singleton_self _, id⟩
  | tail _ hyz ih =>
    intro m hm
    obtain ⟨m', hm', req, hreq, href⟩ := hyz
    obtain ⟨stack, r', hw, -, hpass⟩ := ih m' hm'
    obtain ⟨r'', hw', hpass'⟩ := (hw.step hreq href).2.2 m hm
    exact ⟨_, r'', hw', List.mem_append_right _ (List.mem_singleton_self _), fun h => hpass' (hpass h)⟩

theorem no_cycle (hr : Settled blake c S manifests [g.gate] g r) (hsound : r.status ≠ .fail)
    (hx : Inside manifests g x) : ¬ TransGen (Refers manifests g) x x := by
  intro hxx
  obtain ⟨w, ⟨m, hm, -⟩, -⟩ := TransGen.head'_iff.1 hxx
  obtain ⟨stack, r', hw, hmem, -⟩ := entered_inside hr hsound hx m hm
  exact hw.no_return hxx hmem

/-! ## Exactness -/

/-- A gate in order passes on every path of gates that lead to it. -/
theorem pass_of_sound (hg : GateSound blake c S manifests g) : ∀ (n : Nat) {stack : List String} {x : String} {m : Gate}
    {r : GateReport}, (openManifests manifests stack).card = n → Inside manifests g x →
    manifestOf manifests g x = .ok m → g.gate ∈ stack → (∀ w ∈ stack, ReflTransGen (Refers manifests g) w x) →
    Settled blake c S manifests stack m r → r.status = .pass := by
  intro n
  induction n using Nat.strong_induction_on with
  | _ n ih =>
    intro stack x m r hn hx hm hroot hpath hr
    obtain ⟨m₀, hm₀, hne⟩ := hg.loads x hx
    cases Except.ok.inj (hm.symm.trans hm₀)
    refine hr.lines.1.2 ⟨hne, fun req hreq line hline => ?_⟩
    by_cases hleaf : req.Leaf
    · obtain ⟨line', hline', hpass⟩ := leaf_line blake c S manifests stack hleaf
      rw [hline.unique hline']
      exact hpass.2 (hg.leaves x m hx hm req hreq hleaf)
    · obtain ⟨href, hkind⟩ := not_or.1 hleaf
      obtain ⟨y, href⟩ := Option.ne_none_iff_exists'.1 href
      have hxy : Refers manifests g x y := ⟨m, hm, req, hreq, href⟩
      have hy : Inside manifests g y := hx.tail hxy
      have hnew : y ∉ stack := fun hmem => hg.acyclic x hx (TransGen.head' hxy (hpath y hmem))
      obtain ⟨m', hm', -⟩ := hg.loads y hy
      have hload : loadManifest manifests y = .ok m' := manifestOf_new hroot hnew ▸ hm'
      obtain ⟨r', hr'⟩ := exists_settled blake c S manifests (stack ++ [y]) m'
      have hlt := openManifests_lt (loadManifest_ok hload).2 hnew
      have hpath' : ∀ w ∈ stack ++ [y], ReflTransGen (Refers manifests g) w y := by
        intro w hw
        rcases List.mem_append.1 hw with hw | hw
        · exact (hpath w hw).tail hxy
        · rw [List.mem_singleton.1 hw]
      have hpass := ih _ (hn ▸ hlt) rfl hy hm' (List.mem_append_left _ hroot) hpath' hr'
      obtain ⟨line', hline', hstatus⟩ := line_nested href (not_not.1 hkind) hnew hload hr'
      rw [hline.unique hline', hstatus, hpass]

theorem sound_of_pass (hr : Settled blake c S manifests [g.gate] g r) (hpass : r.status = .pass) :
    GateSound blake c S manifests g := by
  have hsound : r.status ≠ .fail := fun hfail => Verdict.noConfusion (hpass.symm.trans hfail)
  have hroot : manifestOf manifests g g.gate = .ok g := if_pos rfl
  have hloads : ∀ x, Inside manifests g x → ∃ m, manifestOf manifests g x = .ok m := by
    intro x hx
    rcases ReflTransGen.cases_tail hx with rfl | ⟨w, hw, m, hm, req, hreq, href⟩
    · exact ⟨g, hroot⟩
    · obtain ⟨stack, r', hentered, -, hpass'⟩ := entered_inside hr hsound hw m hm
      obtain ⟨hnew, hkind, -⟩ := hentered.step hreq href
      rw [manifestOf_new hentered.root hnew]
      cases hload : loadManifest manifests x with
      | ok m' => exact ⟨m', rfl⟩
      | error e =>
        obtain ⟨line, hline, hblocked⟩ := line_unloaded blake c S href hkind hnew hload
        have hline' := (hentered.settled.lines.1.1 (hpass' hpass)).2 req hreq line hline
        cases hblocked.symm.trans hline'
  refine ⟨fun x hx => no_cycle hr hsound hx, fun x hx => ?_, fun x m hx hm req hreq hleaf => ?_⟩
  · obtain ⟨m, hm⟩ := hloads x hx
    obtain ⟨stack, r', hw, -, hpass'⟩ := entered_inside hr hsound hx m hm
    exact ⟨m, hm, (hw.settled.lines.1.1 (hpass' hpass)).1⟩
  · obtain ⟨stack, r', hw, -, hpass'⟩ := entered_inside hr hsound hx m hm
    obtain ⟨line, hline, hiff⟩ := leaf_line blake c S manifests stack hleaf
    exact hiff.1 ((hw.settled.lines.1.1 (hpass' hpass)).2 req hreq line hline)

/-- The evaluation ends with one report from some fuel on. It is PASS exactly when the gates inside have no cycle, all
load, all have requirements and all their leaves pass; a cycle inside makes it FAIL. -/
theorem gate_evaluation_exact (blake : List UInt8 → Digest) (c : LineCodec) (S : Store) (manifests : Manifests)
    (g : Gate) : ∃ report, (∃ n, ∀ fuel, n ≤ fuel → evaluate blake c fuel S manifests g = some report) ∧
      (report.status = .pass ↔ GateSound blake c S manifests g) ∧
      ((∃ x, Inside manifests g x ∧ TransGen (Refers manifests g) x x) → report.status = .fail) := by
  obtain ⟨r, hr⟩ := exists_settled blake c S manifests [g.gate] g
  refine ⟨r, ⟨S.mentioned.card + (openManifests manifests [g.gate]).card + 1, fun fuel hfuel => ?_⟩, ⟨?_, ?_⟩, ?_⟩
  · exact hr fuel fuel (by omega) (by omega)
  · exact sound_of_pass hr
  · intro hg
    have hpath : ∀ w ∈ [g.gate], ReflTransGen (Refers manifests g) w g.gate := by
      intro w hw
      rw [List.mem_singleton.1 hw]
    exact pass_of_sound hg _ rfl .refl (if_pos rfl) (List.mem_singleton_self _) hpath hr
  · rintro ⟨x, hx, hxx⟩
    by_contra hsound
    exact no_cycle hr hsound hx hxx

end SovereignCore.Evidence
