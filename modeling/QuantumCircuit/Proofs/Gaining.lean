import QuantumCircuit.Proofs.Unwinding

/-!
# What calls add to the active scope

A call on the active scope is made whole or not at all, whether a block is open or not
(`Circuit.calls_whole_or_not`). If it is refused the circuit is as it was. If an operation is
applied, the active scope gains exactly one record for each application it comes to, in order; if a
variable is added, the scope gains its declaration and then the store of its first value.

Outside every block a call makes its last check before its first write. So what has to be shown
there is that a check which has passed would pass again with the first writes done: records of one
operation agree on names (`Content.check_snoc`), and a variable that was counted as declared is
declared by then (`Content.check_of_pending`).
-/

namespace QuantumCircuit

/-! ## Checks that outlast the first write -/

namespace ParameterTable

variable {t : ParameterTable} {p q : Parameter} {site : ParameterUse}

/-- Tracking a parameter is in the way of those only that share its name. -/
theorem Admits.track (h : t.Admits p) (hq : p.name = q.name → p = q) :
    (t.track site q).Admits p := by
  intro r hr
  rw [named?_track] at hr
  by_cases hcontains : t.contains q = true
  · rw [if_pos hcontains] at hr
    exact h r hr
  · rw [if_neg hcontains] at hr
    by_cases hname : q.name = p.name
    · rw [if_pos hname] at hr
      cases hr
      exact (hq hname.symm).symm
    · rw [if_neg hname] at hr
      exact h r hr

theorem Admits.trackRecord {k : Nat} {slots : List (Nat × Parameter)} (h : t.Admits p)
    (hslots : ∀ u ∈ slots, p.name = u.2.name → p = u.2) : (t.trackRecord k slots).Admits p :=
  List.foldlRecOn (motive := (Admits · p)) slots _ h fun _ ht u hu => ht.track (hslots u hu)

/-- What passes the check passes it again when it is tracked. -/
theorem check_trackRecord {k : Nat} {slots : List (Nat × Parameter)}
    (h : t.check (slots.map (·.2)) = .ok ()) :
    (t.trackRecord k slots).check (slots.map (·.2)) = .ok () := by
  obtain ⟨hadmits, hapart⟩ := check_eq_ok_iff.1 h
  refine check_eq_ok_iff.2 ⟨fun p hp => ?_, hapart⟩
  exact (hadmits p hp).trackRecord fun u hu => hapart p hp u.2 (List.mem_map_of_mem hu)

end ParameterTable

namespace Content

variable {c : Content} {i r : Instruction}

/-- A record can still come in after one of the same operation. -/
theorem check_snoc (hr : c.check r = .ok ()) (hop : r.operation = i.operation) :
    (c.snoc i).check r = .ok () := by
  have hnames : (c.snoc i).table.check (r.operation.freeParameters.map (·.2)) = .ok () := by
    have htable := check_table hr
    rw [hop] at htable ⊢
    exact ParameterTable.check_trackRecord htable
  -- all else that is checked is no matter of records
  obtain ⟨hoperands, hr⟩ := Checking.seq_eq_ok_iff.1 hr
  obtain ⟨-, hr⟩ := Checking.seq_eq_ok_iff.1 hr
  exact Checking.seq_eq_ok_iff.2 ⟨hoperands, Checking.seq_eq_ok_iff.2 ⟨hnames, hr⟩⟩

/-- A record that counts on an identifier can come in when the identifier is declared. -/
theorem check_of_pending {j : Identifier} (h : c.checkWith i [j] = .ok ())
    (hnone : c.identifiers.get? j.name = none) :
    check { c with identifiers := c.identifiers.insert j .declare } i = .ok () := by
  obtain ⟨hoperands, h⟩ := Checking.seq_eq_ok_iff.1 h
  obtain ⟨hnames, h⟩ := Checking.seq_eq_ok_iff.1 h
  obtain ⟨hdeclared, hrest⟩ := Checking.seq_eq_ok_iff.1 h
  refine Checking.seq_eq_ok_iff.2 ⟨hoperands, Checking.seq_eq_ok_iff.2 ⟨hnames,
    Checking.seq_eq_ok_iff.2 ⟨?_, hrest⟩⟩⟩
  refine checkEach_eq_ok_iff.2 fun k hk => checkDeclared_eq_ok_iff.2 ?_
  refine (IdentifierTable.contains_insert_iff hnone).2 ?_
  have hcounted := checkEach_eq_ok_iff.1 hdeclared k hk
  unfold checkDeclared at hcounted
  split at hcounted
  · rename_i hfound
    simpa using hfound
  · cases hcounted

end Content

namespace Circuit

variable {c d f : Circuit} {e : CircuitError} {k : Call} {r : Instruction} {rs : List Instruction}

/-! ## Calls outside every block -/

/-- Records of one operation that have all been checked all come in. -/
theorem each_append_of_checked {op : Operation} (hclosed : c.blocks = [])
    (hrs : ∀ r ∈ rs, r.operation = op ∧ c.content.check r = .ok ()) :
    ∃ d, Edit.each append rs c = .ok () d := by
  induction rs generalizing c with
  | nil => exact ⟨c, rfl⟩
  | cons r rest ih =>
    obtain ⟨⟨hr, hcheck⟩, hrest⟩ := List.forall_mem_cons.1 hrs
    have hadded := (append_eq_ok_iff_of_closed hclosed).2 ⟨hcheck, rfl⟩
    obtain ⟨d, hd⟩ := ih (c := { c with content := c.content.snoc r }) hclosed fun r' hr' => by
      obtain ⟨hop, hcheck'⟩ := hrest r' hr'
      exact ⟨hop, Content.check_snoc hcheck' (hop.trans hr.symm)⟩
    exact ⟨d, (Edit.bind_apply_of_ok hadded).trans hd⟩

theorem appendOperation_refused_of_closed {op : Operation} {qubits : List (BitSpec .quantum)}
    {clbits : List (BitSpec .classical)} (hclosed : c.blocks = [])
    (h : appendOperation op qubits clbits c = .error e d) : d = c := by
  rcases Call.appendOperation_cases op qubits clbits c with
    ⟨_, hrefused⟩ | ⟨rs, hrs, hchecked, hrun⟩
  · cases hrefused.symm.trans h
    rfl
  · rw [if_neg (show ¬ c.inScope = true by simp [inScope, hclosed])] at hchecked
    obtain ⟨d', hd'⟩ := each_append_of_checked hclosed
      fun r hr => ⟨operation_of_expand hrs r hr, hchecked r hr⟩
    cases (hrun.trans hd').symm.trans h

theorem declare_eq_ok_iff_of_closed {j : Identifier} (hclosed : c.blocks = []) :
    declare j c = .ok () d ↔ c.content.checkIdentifier j .declare = .ok () ∧
      d = { c with content :=
        { c.content with identifiers := c.content.identifiers.insert j .declare } } := by
  rw [declare_of_closed hclosed]
  exact Edit.within_eq_ok_iff_of fun _ => Content.addIdentifier_eq_ok_iff

theorem declare_refused_of_closed {j : Identifier} (hclosed : c.blocks = [])
    (h : declare j c = .error e d) : d = c := by
  obtain ⟨name, content, blocks⟩ := c
  cases hclosed
  obtain ⟨content', hadd, rfl⟩ := Edit.within_eq_error_iff.1 h
  obtain ⟨-, rfl⟩ := Content.addIdentifier_eq_error_iff.1 hadd
  rfl

theorem jump_refused_of_closed {j : Jump} (hclosed : c.blocks = [])
    (h : jump j c = .error e d) : d = c := by
  obtain ⟨name, content, blocks⟩ := c
  cases hclosed
  obtain ⟨content', hpush, rfl⟩ := Edit.within_eq_error_iff.1 h
  obtain ⟨-, rfl⟩ := Edit.update_eq_error_iff.1 hpush
  rfl

/-- The store of a new variable passes its check again once the variable is declared. -/
theorem addVar_refused_of_closed {v : Var} {initial : Expr} (hclosed : c.blocks = [])
    (h : addVar v initial c = .error e d) : d = c := by
  rcases Call.addVar_cases v initial c with
    ⟨_, hrefused⟩ | ⟨s, -, hdeclarable, hchecked, hrun⟩
  · cases hrefused.symm.trans h
    rfl
  replace h := hrun.symm.trans h
  unfold checkDeclaration at hdeclarable
  unfold checkAppend at hchecked
  simp only [hclosed] at hdeclarable hchecked
  rcases Edit.bind_eq_error_iff.1 h with h | ⟨_, u, hu, h⟩
  · exact declare_refused_of_closed hclosed h
  · obtain ⟨-, rfl⟩ := (declare_eq_ok_iff_of_closed hclosed).1 hu
    have hcheck := Content.check_of_pending hchecked
      (Content.get?_eq_none_of_checkIdentifier hdeclarable)
    have hadded := (append_eq_ok_iff_of_closed (c := { c with content :=
      { c.content with identifiers := c.content.identifiers.insert (.var v) .declare } })
      hclosed).2 ⟨hcheck, rfl⟩
    cases hadded.symm.trans h

/-- A call on the scope that is refused outside every block changes nothing. -/
theorem Call.eq_of_refused_of_closed (hk : k.OnScope) (hclosed : c.blocks = [])
    (h : k.run c = .error e d) : d = c :=
  eq_of_refused_of_onScope hk (fun _ _ _ => appendOperation_refused_of_closed hclosed)
    (fun _ _ => addVar_refused_of_closed hclosed) (fun _ => declare_refused_of_closed hclosed)
    (fun _ => jump_refused_of_closed hclosed) h

/-! ## What the scopes hold -/

/-- The identifiers and items of every scope in order: the innermost block first, the store last. -/
def scopes (c : Circuit) : List (List (Identifier × IdentifierKind) × List BlockItem) :=
  c.blocks.map (fun b => (b.locals.toList, b.items)) ++
    [(c.content.identifiers.toList, c.content.records.map .record)]

/-- That the active scope has come to declare `is` and to hold `rs`, both at the end, and that
nothing else has come in anywhere. -/
structure Gains (c : Circuit) (is : List Identifier) (rs : List Instruction) (d : Circuit) :
    Prop where
  name : d.name = c.name
  bans : d.blocks.map (·.ban) = c.blocks.map (·.ban)
  qubits : d.content.qubits = c.content.qubits
  clbits : d.content.clbits = c.content.clbits
  phase : d.content.phase = c.content.phase
  /-- Under an open block the store is not touched at all. -/
  store : c.blocks ≠ [] → d.content = c.content
  scopes : d.scopes = c.scopes.modifyHead fun s =>
    (s.1 ++ is.map (·, .declare), s.2 ++ rs.map .record)

namespace Gains

theorem refl (c : Circuit) : Gains c [] [] c where
  name := rfl
  bans := rfl
  qubits := rfl
  clbits := rfl
  phase := rfl
  store _ := rfl
  scopes := by cases c.scopes <;> simp

theorem blocks_ne_nil {is : List Identifier} (h : c.Gains is rs d) (hopen : c.blocks ≠ []) :
    d.blocks ≠ [] := by
  have hbans := congrArg List.length h.bans
  intro hnil
  simp only [hnil, List.map_nil, List.length_nil, List.length_map] at hbans
  exact hopen (List.length_eq_zero_iff.1 hbans.symm)

theorem trans {is js : List Identifier} {rs' : List Instruction} (h : c.Gains is rs d)
    (h' : d.Gains js rs' f) : c.Gains (is ++ js) (rs ++ rs') f where
  name := h'.name.trans h.name
  bans := h'.bans.trans h.bans
  qubits := h'.qubits.trans h.qubits
  clbits := h'.clbits.trans h.clbits
  phase := h'.phase.trans h.phase
  store hopen := (h'.store (h.blocks_ne_nil hopen)).trans (h.store hopen)
  scopes := by
    rw [h'.scopes, h.scopes]
    cases c.scopes <;> simp

/-- In an open block only its top matters; captures that were put down are no gain. -/
theorem of_top {is : List Identifier} (used : List Identifier) {top top' : Block}
    {outer : List Block} (hc : captureAll used c.blocks = top :: outer)
    (hlocals : top'.locals.toList = top.locals.toList ++ is.map (·, .declare))
    (hitems : top'.items = top.items ++ rs.map .record) (hban : top'.ban = top.ban) :
    c.Gains is rs ⟨c.name, c.content, top' :: outer⟩ := by
  have hbare := Block.bare_captureAll used c.blocks
  rw [hc] at hbare
  have hbans : c.blocks.map (·.ban) = top.ban :: outer.map (·.ban) := by
    simpa [Block.bare, Function.comp_def] using (congrArg (List.map Block.ban) hbare).symm
  have hheld : c.blocks.map (fun b => (b.locals.toList, b.items)) =
      (top.locals.toList, top.items) :: outer.map fun b => (b.locals.toList, b.items) := by
    simpa [Block.bare, Function.comp_def] using
      (congrArg (List.map fun b : Block => (b.locals.toList, b.items)) hbare).symm
  refine ⟨rfl, ?_, rfl, rfl, rfl, fun _ => rfl, ?_⟩
  · rw [hbans, List.map_cons, hban]
  · unfold Circuit.scopes
    rw [hheld, List.map_cons, hlocals, hitems]
    rfl

end Gains

/-- A record that is added is a gain of just that record. -/
theorem append_gains (h : append r c = .ok () d) : c.Gains [] [r] d := by
  by_cases hclosed : c.blocks = []
  · obtain ⟨-, rfl⟩ := (append_eq_ok_iff_of_closed hclosed).1 h
    refine ⟨rfl, rfl, rfl, rfl, rfl, fun hopen => absurd hclosed hopen, ?_⟩
    simp [scopes, hclosed, Content.snoc]
  · rcases append_cases hclosed r with ⟨e, hrefused⟩ | ⟨-, -, f, g, -, -, hadded⟩
    · cases hrefused.symm.trans h
    · cases hadded.symm.trans h
      obtain ⟨top, outer, hblocks, hd⟩ := withRecord_eq_of_open hclosed r f g
      rw [hd]
      exact .of_top _ hblocks (List.append_nil _).symm rfl rfl

theorem each_append_gains (h : Edit.each append rs c = .ok () d) : c.Gains [] rs d := by
  induction rs generalizing c with
  | nil =>
    cases h
    exact .refl _
  | cons r rest ih =>
    obtain ⟨_, u, hr, hrest⟩ := Edit.bind_eq_ok_iff.1 h
    exact (append_gains hr).trans (ih hrest)

/-- A declaration is a gain of just that identifier. -/
theorem declare_gains {j : Identifier} (h : declare j c = .ok () d) : c.Gains [j] [] d := by
  by_cases hclosed : c.blocks = []
  · obtain ⟨hcheck, rfl⟩ := (declare_eq_ok_iff_of_closed hclosed).1 h
    refine ⟨rfl, rfl, rfl, rfl, rfl, fun hopen => absurd hclosed hopen, ?_⟩
    have hlist : (c.content.identifiers.insert j .declare).toList =
        c.content.identifiers.toList ++ [(j, .declare)] :=
      IdentifierTable.toList_insert (Content.get?_eq_none_of_checkIdentifier hcheck)
    simp [scopes, hclosed, hlist]
  · obtain ⟨top, outer, hblocks⟩ := List.exists_cons_of_ne_nil hclosed
    obtain ⟨hcheck, rfl⟩ := (declare_eq_ok_iff_of_open hblocks).1 h
    have hnew := (checkDeclaration_eq_ok hblocks hcheck).2
    exact .of_top [] hblocks (IdentifierTable.toList_insert hnew) (List.append_nil _).symm rfl

/-! ## Whole or not at all -/

/-- A call on the active scope, compositions counted only where a block is open. If it is refused,
the store and every open block are as they were. If an operation is applied, the active scope gains
its applications to the operands as records, in order, and if a variable is added, its declaration
and the store of its first value; nothing else comes in. -/
theorem calls_whole_or_not (c : Circuit) :
    (∀ (k : Call) e d, k.ToScope → (c.blocks = [] → k.OnScope) → k.run c = .error e d → d = c) ∧
    (∀ op qubits clbits d, appendOperation op qubits clbits c = .ok () d →
      ∃ qs bs applications, qubits.mapM c.content.resolveSpec = .ok qs ∧
        clbits.mapM c.content.resolveSpec = .ok bs ∧ op.broadcast qs bs = .ok applications ∧
        c.Gains [] (applications.map fun a => .make op a.1 a.2) d) ∧
    ∀ v initial d, addVar v initial c = .ok () d →
      ∃ s, Store.make (.var v) initial = .ok s ∧
        c.Gains [.var v] [.make (.store s) [] []] d := by
  refine ⟨fun k e d hk hclosed h => ?_, fun op qubits clbits d h => ?_, fun v initial d h => ?_⟩
  · by_cases hblocks : c.blocks = []
    · exact Call.eq_of_refused_of_closed (hclosed hblocks) hblocks h
    · exact Call.eq_of_refused hk hblocks h
  · obtain ⟨rs, u, hrs, hfirst, hadd⟩ :=
      Call.run_eq_ok (k := .appendOperation op qubits clbits) trivial h
    cases hfirst
    obtain ⟨qs, hqs, hrs⟩ := Checking.bind_eq_ok_iff.1 hrs
    obtain ⟨bs, hbs, hrs⟩ := Checking.bind_eq_ok_iff.1 hrs
    obtain ⟨applications, happlications, hrs⟩ := Checking.bind_eq_ok_iff.1 hrs
    cases hrs
    exact ⟨qs, bs, applications, hqs, hbs, happlications, each_append_gains hadd⟩
  · obtain ⟨rs, u, hrs, hdeclare, hadd⟩ := Call.run_eq_ok (k := .addVar v initial) trivial h
    obtain ⟨s, hs, hrs⟩ := Checking.bind_eq_ok_iff.1 hrs
    cases hrs
    exact ⟨s, hs, (declare_gains hdeclare).trans (each_append_gains hadd)⟩

/-- Three qubits and a clbit, and an open block. -/
def threeInBlock : Circuit := { threeLooseQubits with blocks := [Block.empty none] }

/-- Two controlled gates come in together. Of two others the first alone could come in, as the
second has one qubit twice, and so neither does. -/
theorem calls_whole_or_not_cx :
    (∃ d, appendOperation (.gate (.fixed .cx)) [.positions [0, 1], .positions [2]] [] threeInBlock =
        .ok () d ∧
      threeInBlock.Gains [] [.make (.gate (.fixed .cx)) [0, 2] [],
        .make (.gate (.fixed .cx)) [1, 2] []] d) ∧
    (∃ e d, appendOperation (.gate (.fixed .cx)) [.positions [0, 1], .positions [1]] []
      threeInBlock = .error e d ∧ d = threeInBlock) := by
  obtain ⟨hrefused, hgains, -⟩ := calls_whole_or_not threeInBlock
  constructor
  · obtain ⟨d, hd⟩ : ∃ d, appendOperation (.gate (.fixed .cx))
        [.positions [0, 1], .positions [2]] [] threeInBlock = .ok () d := ⟨_, rfl⟩
    obtain ⟨qs, bs, applications, hqs, hbs, happlications, hd'⟩ := hgains _ _ _ _ hd
    cases hqs
    cases hbs
    cases happlications
    exact ⟨d, hd, hd'⟩
  · obtain ⟨e, d, hd⟩ : ∃ e d, appendOperation (.gate (.fixed .cx))
        [.positions [0, 1], .positions [1]] [] threeInBlock = .error e d := ⟨_, _, rfl⟩
    refine ⟨e, d, hd, hrefused (.appendOperation _ _ _) e d trivial (fun hclosed => ?_) hd⟩
    exact absurd hclosed (List.cons_ne_nil _ _)

end Circuit

end QuantumCircuit
