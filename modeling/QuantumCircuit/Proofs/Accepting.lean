import QuantumCircuit.Proofs.Answering

/-!
# Which circuits can be stacked

Two circuits are compatible (`Circuit.Compatible`) if no bit is in both, if their registers,
identifiers and parameters do not get in each other's way by their names, and if their expressions
name only what is their own. All the same a stack of them may be refused. Before their identifiers
come in, registers have come in that neither of them has: a default register `c`, or aliases called
`c0`, `c1` and so on; and an identifier may have such a name (`Circuit.InTheWay`). Besides room for
the bits that is all there is (`Circuit.Reachable.tensor_accepts`).
-/

namespace QuantumCircuit

/-- Parameters come in if names are unique among them and those in use. -/
theorem Content.Named.check_of_apart {c : Content} (hc : c.Named) {ps : List Parameter}
    (h : ParameterTable.Apart fun p => c.table.contains p ∨ p ∈ ps) : c.table.check ps = .ok () :=
  ParameterTable.check_eq_ok_iff.2
    ⟨fun p hp => hc.resolves.admits_iff.2 fun q hq hname => h q p (.inl hq) (.inr hp) hname,
      fun p hp q hq => h p q (.inr hp) (.inr hq)⟩

theorem goodTargets_shifted {n offset size : Nat} (h : offset + n ≤ size) :
    GoodTargets n size ((List.range n).map (offset + ·)) where
  length := by simp
  nodup := (List.nodup_map_iff fun _ _ => Nat.add_left_cancel).2 List.nodup_range
  range t ht := by
    obtain ⟨k, hk, rfl⟩ := List.mem_map.1 ht
    have hlt := List.mem_range.1 hk
    omega

namespace Circuit

variable {A : Policy} {low high : Circuit} {stamp : Nat}

/-! ## Compatible circuits -/

/-- Two circuits that have nothing in common which a stack of them could not have twice. -/
@[mk_iff]
structure Compatible (low high : Circuit) : Prop where
  closed : low.blocks = [] ∧ high.blocks = []
  bits : ∀ k, ∀ bit ∈ (low.content.bits k).bits, bit ∉ (high.content.bits k).bits
  /-- Two default registers are the exception. -/
  quantum : BothDefault low high ∨
    ((low.content.qubits.registers ++ high.content.qubits.registers).map (·.name)).Nodup
  /-- Two measurement registers are the exception. -/
  classical : BothMeasured low high ∨
    ((low.content.clbits.registers ++ high.content.clbits.registers).map (·.name)).Nodup
  identifiers : ∀ e ∈ low.content.identifiers.toList, ∀ f ∈ high.content.identifiers.toList,
    e.1.name ≠ f.1.name
  /-- Where one circuit has inputs the other has no captures. -/
  kinds : ∀ e ∈ low.content.identifiers.toList, ∀ f ∈ high.content.identifiers.toList,
    (e.2 = .input → f.2 ≠ .capture) ∧ (f.2 = .input → e.2 ≠ .capture)
  registers : ∀ e ∈ low.content.identifiers.toList ++ high.content.identifiers.toList, ∀ k,
    ∀ r ∈ (low.content.bits k).registers ++ (high.content.bits k).registers, r.name ≠ e.1.name
  parameters : ∀ p ∈ low.parameters ++ high.parameters, ∀ q ∈ low.parameters ++ high.parameters,
    p.name = q.name → p = q
  own : low.NamesOwn ∧ high.NamesOwn

instance (low high : Circuit) : Decidable (BothDefault low high) :=
  inferInstanceAs (Decidable (_ ∧ _))

instance (low high : Circuit) : Decidable (BothMeasured low high) :=
  inferInstanceAs (Decidable (_ ∧ _))

/-- What holds of both kinds of bits is checked of both. -/
instance {P : BitKind → Prop} [Decidable (P .quantum)] [Decidable (P .classical)] :
    Decidable (∀ k, P k) :=
  decidable_of_iff (P .quantum ∧ P .classical)
    ⟨fun h k => by cases k <;> simp [h], fun h => ⟨h .quantum, h .classical⟩⟩

instance {k : BitKind} (xs ys : List (Bit k)) : Decidable (∀ bit ∈ xs, bit ∉ ys) :=
  inferInstance

/-- Whether circuits are compatible can be checked. -/
instance (low high : Circuit) : Decidable (Compatible low high) :=
  decidable_of_iff _ (compatible_iff low high).symm

/-- There is room for the bits of both. -/
def Roomy (low high : Circuit) : Prop :=
  low.numQubits + high.numQubits ≤ BitList.capacity ∧
    low.numClbits + high.numClbits ≤ BitList.capacity

/-- A classical register that is there by the time the identifier comes in has its name: an
identifier of `low` comes in after the frame, one of `high` after `low`. -/
def InTheWay (low high : Circuit) (stamp : Nat) (i : Identifier) : Prop :=
  ∃ frame, tensorFrame low high stamp = .ok frame ∧
    ((low.content.identifiers.contains i ∧ ∃ r ∈ frame.content.clbits.registers, r.name = i.name) ∨
      high.content.identifiers.contains i ∧
        ∃ c, compose low (low.layerOptions 0 0) frame = .ok () c ∧
          ∃ r ∈ c.content.clbits.registers, r.name = i.name)

/-- The identifiers of compatible circuits go together. -/
theorem Compatible.admissible (h : Compatible low high) (hlow : low.Reachable A)
    (hhigh : high.Reachable A) :
    Admissible (low.content.identifiers.toList ++ high.content.identifiers.toList) := by
  have haccounted : ∀ {c : Circuit}, c.Reachable A → c.content.identifiers.Accounted := fun hc =>
    (hc.built.everywhere_any Content.accounted_invariant).here
  exact (haccounted hlow).admissible.append (haccounted hhigh).admissible h.identifiers
    (fun e he f hf => (h.kinds e he f hf).1) fun f hf e he => (h.kinds e he f hf).2

/-- An identifier of compatible circuits has no name of a register of theirs. -/
theorem Compatible.name_ne (h : Compatible low high) {i : Identifier}
    (hi : low.content.identifiers.contains i ∨ high.content.identifiers.contains i) {k : BitKind}
    {r : Register k} (hr : r ∈ (low.content.bits k).registers ++ (high.content.bits k).registers) :
    r.name ≠ i.name := by
  have hlisted : ∃ kind, (i, kind) ∈
      low.content.identifiers.toList ++ high.content.identifiers.toList := by
    rcases hi with hi | hi
    · obtain ⟨kind, hmem⟩ := IdentifierTable.mem_toList_of_contains hi
      exact ⟨kind, List.mem_append_left _ hmem⟩
    · obtain ⟨kind, hmem⟩ := IdentifierTable.mem_toList_of_contains hi
      exact ⟨kind, List.mem_append_right _ hmem⟩
  obtain ⟨kind, hmem⟩ := hlisted
  exact h.registers (i, kind) hmem k r hr

/-! ## The frame -/

/-- The bits of one kind of both circuits come in, with their registers. -/
theorem takingBoth_ok {k : BitKind} (hlow : low.content.Orderly) (hhigh : high.content.Orderly)
    (hbits : ∀ bit ∈ (low.content.bits k).bits, bit ∉ (high.content.bits k).bits)
    (hroom : (low.content.bits k).size + (high.content.bits k).size ≤ BitList.capacity)
    (hnames : (((low.content.bits k).registers ++ (high.content.bits k).registers).map
      (·.name)).Nodup) : ∃ l, takingBoth k low high .empty = .ok () l := by
  refine BitList.taking_ok ?_ (by rwa [List.length_append]) (fun r hr bit hbit => ?_) hnames
  · refine List.nodup_append.2 ⟨(hlow.sound k).bits, (hhigh.sound k).bits, fun a ha b hb heq => ?_⟩
    exact hbits a ha (heq ▸ hb)
  · rcases List.mem_append.1 hr with hr | hr
    · exact List.mem_append_left _ ((hlow.sound k).members r hr bit hbit)
    · exact List.mem_append_right _ ((hhigh.sound k).members r hr bit hbit)

/-- Two compatible circuits have a frame. -/
theorem Compatible.frames (h : Compatible low high) (hlow : low.content.Orderly)
    (hhigh : high.content.Orderly) (hroom : Roomy low high) (stamp : Nat) :
    ∃ qubits clbits, Frames low high stamp qubits clbits := by
  by_cases hdefault : BothDefault low high
  · exact ⟨_, _, .default hdefault⟩
  · obtain ⟨qubits, hqubits⟩ := takingBoth_ok (k := .quantum) hlow hhigh (h.bits .quantum) hroom.1
      (h.quantum.resolve_left hdefault)
    by_cases hmeasured : BothMeasured low high
    · obtain ⟨clbits, hclbits⟩ := BitList.addRegister_make_ok (k := .classical) "meas" stamp
        (Nat.add_comm _ _ ▸ hroom.2 : high.numClbits + low.numClbits ≤ BitList.capacity)
      exact ⟨qubits, clbits, .measured hdefault hmeasured hqubits hclbits⟩
    · obtain ⟨clbits, hclbits⟩ := takingBoth_ok (k := .classical) hlow hhigh (h.bits .classical)
        hroom.2 (h.classical.resolve_left hmeasured)
      exact ⟨qubits, clbits, .carried hdefault hmeasured hqubits hclbits⟩

section Frame

variable {qubits : BitList .quantum} {clbits : BitList .classical}
  (hframes : Frames low high stamp qubits clbits)
include hframes

/-- A frame is as wide as both circuits. -/
theorem Frames.sizes_of_roomy (hlow : low.content.Orderly) (hhigh : high.content.Orderly)
    (hroom : Roomy low high) : qubits.size = low.numQubits + high.numQubits ∧
      clbits.size = low.numClbits + high.numClbits := by
  obtain ⟨hqubits, hclbits⟩ := hframes.sizes hlow hhigh
  exact ⟨hqubits.resolve_right fun h => Nat.not_lt_of_le hroom.1 h.2,
    hclbits.resolve_right fun h => Nat.not_lt_of_le hroom.2 h.2⟩

theorem Frames.ready : (framed high.name qubits clbits).Ready A where
  reachable := Reachable.tensorFrame_reachable (tensorFrame_eq_ok_iff.2 ⟨_, _, hframes, rfl⟩)
  closed := rfl
  named := Content.named_invariant.empty.congr ⟨rfl, rfl, rfl⟩

/-- Of the registers of a frame only a new default register can have the name of an identifier. -/
theorem Frames.default_of_name (h : Compatible low high) (hlow : low.content.Orderly)
    (hhigh : high.content.Orderly) {i : Identifier}
    (hi : low.content.identifiers.contains i ∨ high.content.identifiers.contains i)
    {r : ClassicalRegister} (hr : r ∈ clbits.registers) (hname : r.name = i.name) :
    BothDefault low high ∧ i.name = "c" := by
  cases hframes with
  | default hdefault =>
    rcases BitList.ofSize_cases (k := .classical) (high.numClbits + low.numClbits) stamp with
      hnone | ⟨-, -, hone⟩
    · rw [hnone] at hr
      exact absurd hr List.not_mem_nil
    · rw [hone] at hr
      rw [List.mem_singleton.1 hr] at hname
      exact ⟨hdefault, hname.symm⟩
  | measured _ hmeasured _ hclbits =>
    rw [(BitList.addRegister_make_eq_ok hclbits).2] at hr
    rw [List.mem_singleton.1 hr] at hname
    obtain ⟨q, hq, hmeas⟩ := exists_of_onlyRegister hmeasured.2
    exact absurd (hmeas.trans hname) (h.name_ne hi (List.mem_append_left _ hq))
  | carried _ _ _ hclbits =>
    rw [(Frames.of_takingBoth hlow hhigh hclbits).2] at hr
    exact absurd hname (h.name_ne hi hr)

end Frame

/-! ## The two compositions -/

/-- A stack of two circuits without open blocks is two compositions onto a frame. -/
theorem tensor_eq (hlow : low.blocks = []) (hhigh : high.blocks = []) :
    tensor high low stamp = tensorFrame low high stamp >>= fun frame =>
      (compose low (low.layerOptions 0 0) >>= fun _ =>
        compose high (high.layerOptions low.numQubits low.numClbits)).finalState frame := by
  simp [tensor, inScope, hlow, hhigh, layerOptions]
  rfl

section Layers

variable {c d : Circuit} {qubits : BitList .quantum} {clbits : BitList .classical}
  (h : Compatible low high) (hroom : Roomy low high) (hlow : low.Reachable A)
  (hhigh : high.Reachable A) (hframes : Frames low high stamp qubits clbits)
include h hroom hlow hhigh hframes

/-- The lower circuit comes into the frame, or an identifier of it is refused. -/
theorem lower_cases :
    (∃ c, compose low (low.layerOptions 0 0) (framed high.name qubits clbits) = .ok () c) ∨
      ∃ i, low.content.identifiers.contains i ∧ (∃ r ∈ clbits.registers, r.name = i.name) ∧
        compose low (low.layerOptions 0 0) (framed high.name qubits clbits) =
          .error (.identifierShadowing i.name) (framed high.name qubits clbits) := by
  have hready : (framed high.name qubits clbits).Ready A := hframes.ready
  obtain ⟨hqubits, hclbits⟩ := hframes.sizes_of_roomy hlow.built.orderly hhigh.built.orderly hroom
  refine compose_onto_cases hready hlow h.own.1 (goodTargets_shifted ?_) (goodTargets_shifted ?_)
    (hready.named.check_of_apart fun p q hp hq => ?_) (h.admissible hlow hhigh).left
  · show 0 + low.numQubits ≤ qubits.size
    omega
  · show 0 + low.numClbits ≤ clbits.size
    omega
  · -- nothing is in use in a frame
    have hnone : ∀ r, ¬ (framed high.name qubits clbits).content.table.contains r :=
      fun r => Bool.false_ne_true
    exact h.parameters p (List.mem_append_left _ (hp.resolve_left (hnone p))) q
      (List.mem_append_left _ (hq.resolve_left (hnone q)))

/-- The upper circuit comes in above it, or an identifier of it is refused. -/
theorem upper_cases
    (hrun : compose low (low.layerOptions 0 0) (framed high.name qubits clbits) = .ok () c) :
    (∃ d, compose high (high.layerOptions low.numQubits low.numClbits) c = .ok () d) ∨
      ∃ i, high.content.identifiers.contains i ∧
        (∃ r ∈ c.content.clbits.registers, r.name = i.name) ∧
        compose high (high.layerOptions low.numQubits low.numClbits) c =
          .error (.identifierShadowing i.name) c := by
  have hready : (framed high.name qubits clbits).Ready A := hframes.ready
  obtain ⟨hqubits, hclbits⟩ := hframes.sizes_of_roomy hlow.built.orderly hhigh.built.orderly hroom
  obtain ⟨p, s, images, u, hout⟩ := compose_outcome hready.reachable hlow rfl rfl hrun
  have hreach : c.Reachable A :=
    Reachable.compose hlow.built _ _ _ hready.reachable (.of_ok hrun)
  have hsource := hlow.built.indexed
  have hindexed := hreach.built.indexed
  have hready' : c.Ready A :=
    ⟨hreach, hout.blocks, hout.named hready.named hsource hindexed⟩
  have hspliced := hout.spliced hlow rfl
  refine compose_onto_cases hready' hhigh h.own.2 (goodTargets_shifted ?_) (goodTargets_shifted ?_)
    (hready'.named.check_of_apart fun p q hp hq => ?_) ?_
  · rw [show c.numQubits = qubits.size from congrArg BitList.size hspliced.qubits, hqubits]
  · rw [show c.numClbits = clbits.size from congrArg List.length hspliced.clbits, hclbits]
  · -- what is in use by now came with the lower circuit
    have hcame : ∀ r, c.content.table.contains r → r ∈ low.parameters := fun r hr =>
      (hout.inEither_of_contains hready.named.toIndexed hsource hindexed hr).resolve_left
        Bool.false_ne_true
    exact h.parameters p (List.mem_append.2 (hp.imp (hcame p) id)) q
      (List.mem_append.2 (hq.imp (hcame q) id))
  · rw [hout.toList_identifiers rfl rfl hout.changesAny_eq]
    exact h.admissible hlow hhigh

omit hframes in
/-- A stack of compatible circuits is made, or an identifier in the way is refused. -/
theorem tensor_cases (stamp : Nat) : (∃ d, tensor high low stamp = .ok d) ∨
    ∃ i, InTheWay low high stamp i ∧
      tensor high low stamp = .error (.identifierShadowing i.name) := by
  obtain ⟨qubits, clbits, hframes⟩ :=
    h.frames hlow.built.orderly hhigh.built.orderly hroom stamp
  have hframe := tensorFrame_eq_ok_iff.2 ⟨qubits, clbits, hframes, rfl⟩
  rw [tensor_eq h.closed.1 h.closed.2, hframe]
  rcases lower_cases h hroom hlow hhigh hframes with ⟨c, hc⟩ | ⟨i, hi, hname, hrefused⟩
  · rcases upper_cases h hroom hlow hhigh hframes hc with ⟨d, hd⟩ | ⟨i, hi, hname, hrefused⟩
    · exact .inl ⟨d, Edit.finalState_eq_ok_iff.2 (Edit.bind_eq_ok_iff.2 ⟨(), c, hc, hd⟩)⟩
    · refine .inr ⟨i, ⟨_, hframe, .inr ⟨hi, c, hc, hname⟩⟩, ?_⟩
      exact Edit.finalState_eq_error_iff.2
        ⟨c, Edit.bind_eq_error_iff.2 (.inr ⟨(), c, hc, hrefused⟩)⟩
  · refine .inr ⟨i, ⟨_, hframe, .inl ⟨hi, hname⟩⟩, ?_⟩
    exact Edit.finalState_eq_error_iff.2 ⟨_, Edit.bind_eq_error_iff.2 (.inl hrefused)⟩

end Layers

/-! ## Names in the way -/

section Names

variable {c d : Circuit} (hlow : low.Reachable A) (hhigh : high.Reachable A)
include hlow hhigh

/-- Where a stack has been made, no name was in the way. -/
theorem not_inTheWay_of_tensor (hclosed : low.blocks = [] ∧ high.blocks = [])
    (hd : tensor high low stamp = .ok d) (i : Identifier) : ¬ InTheWay low high stamp i := by
  rw [tensor_eq hclosed.1 hclosed.2] at hd
  obtain ⟨frame, hframe, hstack⟩ := Checking.bind_eq_ok_iff.1 hd
  obtain ⟨_, c, hc, hrun⟩ := Edit.bind_eq_ok_iff.1 (Edit.finalState_eq_ok_iff.1 hstack)
  have hreach : frame.Reachable A := Reachable.tensorFrame_reachable hframe
  have hreach' : c.Reachable A := Reachable.compose hlow.built _ _ _ hreach (.of_ok hc)
  obtain ⟨qubits, clbits, hframes, rfl⟩ := tensorFrame_eq_ok_iff.1 hframe
  obtain ⟨p, s, images, u, hout⟩ := compose_outcome hreach hlow rfl rfl hc
  obtain ⟨p', s', images', u', hout'⟩ := compose_outcome hreach' hhigh hout.blocks rfl hrun
  rintro ⟨frame', hframe', hclash⟩
  obtain rfl := Except.ok.inj (hframe.symm.trans hframe')
  rcases hclash with ⟨hi, r, hr, hname⟩ | ⟨hi, c', hc', r, hr, hname⟩
  · exact hout.names_apart rfl rfl hout.changesAny_eq hlow.listed hi r hr hname
  · obtain rfl : c = c' := (EStateM.Result.ok.inj (hc.symm.trans hc')).2
    exact hout'.names_apart hout.blocks rfl hout'.changesAny_eq hhigh.listed hi r hr hname

variable (h : Compatible low high)
include h

/-- Where all bits and registers are carried over, the lower circuit brings no aliases. -/
theorem aliases_eq_nil_of_carried {qubits : BitList .quantum} {clbits : BitList .classical}
    {p : Placement} {s : Splice} {images : Renaming} {u : Content}
    (hframes : Frames low high stamp qubits clbits) (hdefault : ¬ BothDefault low high)
    (hmeasured : ¬ BothMeasured low high)
    (hout : Outcome (framed high.name qubits clbits) low (low.layerOptions 0 0) c p s images u) :
    s.aliases = [] := by
  have hready : (framed high.name qubits clbits).Ready A := hframes.ready
  have hbring : p.bringClbits = false := hout.placed.brings
  obtain ⟨hbits, hregisters⟩ := hframes.clbits_eq hlow.built.orderly hhigh.built.orderly hdefault
    hmeasured
  refine hout.aliases_eq_nil_of_there hlow h.own.1 hready.reachable.built.orderly
    hout.changesAny_eq fun r bits hr hall => ?_
  obtain ⟨q, hq, -, hqbits⟩ := BitList.exists_mem_of_hasRegister hr
  have hhost : p.host (framed high.name qubits clbits) low = framed high.name qubits clbits :=
    Placement.host_of_not_brings hbring
  refine ⟨q, ?_, hqbits.trans ?_⟩
  · rw [hhost]
    show q ∈ clbits.registers
    rw [hregisters]
    exact List.mem_append_left _ hq
  · -- each clbit of the lower circuit goes to itself
    have hsame := Checking.map_congr (f := id) (g := id) (Checking.mapM_eq_ok_iff.1 hall)
      fun b b' hb => by
        obtain ⟨k, t, hk, ht, hb'⟩ := clbitGoes_of_clbit
          (d := framed high.name qubits clbits) hout.placed hout.place (by rw [hhost]) hb
        obtain rfl := getElem?_shifted ht
        replace hb' : clbits.bits[0 + k]? = some b' := hb'
        have hlt := (List.getElem?_eq_some_iff.1 hk).1
        rw [hbits, Nat.zero_add, List.getElem?_append_left hlt, hk] at hb'
        exact (Option.some.inj hb').symm
    rw [List.map_id, List.map_id] at hsame
    exact hsame.symm

/-- What stands in the way is a register that neither circuit has. -/
theorem InTheWay.made {i : Identifier} (hi : InTheWay low high stamp i) :
    BothDefault low high ∧ i.name = "c" ∨
      (BothDefault low high ∨ BothMeasured low high) ∧ high.content.identifiers.contains i ∧
        ∃ n : Nat, i.name = "c" ++ toString n := by
  obtain ⟨frame, hframe, hclash⟩ := hi
  obtain ⟨qubits, clbits, hframes, rfl⟩ := tensorFrame_eq_ok_iff.1 hframe
  have hlowOrderly := hlow.built.orderly
  have hhighOrderly := hhigh.built.orderly
  rcases hclash with ⟨hi, r, hr, hname⟩ | ⟨hi, c, hc, r, hr, hname⟩
  · exact .inl (hframes.default_of_name h hlowOrderly hhighOrderly (.inl hi) hr hname)
  · have hready : (framed high.name qubits clbits).Ready A := hframes.ready
    obtain ⟨p, s, images, u, hout⟩ := compose_outcome hready.reachable hlow rfl rfl hc
    have hbring : p.bringClbits = false := hout.placed.brings
    rw [hout.registers, hbring, if_neg Bool.false_ne_true, List.append_nil] at hr
    rcases List.mem_append.1 hr with hr | hr
    · exact .inl (hframes.default_of_name h hlowOrderly hhighOrderly (.inr hi) hr hname)
    · obtain ⟨n, hn⟩ := hout.alias_named hlow h.own.1 hready.reachable.built.orderly
        hout.changesAny_eq r hr
      refine .inr ⟨?_, hi, n, hname.symm.trans hn⟩
      by_contra hnot
      obtain ⟨hdefault, hmeasured⟩ := not_or.1 hnot
      rw [aliases_eq_nil_of_carried hlow hhigh h hframes hdefault hmeasured hout] at hr
      exact List.not_mem_nil hr

end Names

/-! ## What can be stacked -/

/-- Compatible circuits are stacked if there is room for their bits and no name is in the way. If
one is, the stack is refused for that name, which is `c`, for a new default register, or `c` with a
number, for an alias that has come in with the lower circuit. -/
theorem Reachable.tensor_accepts (hlow : low.Reachable A) (hhigh : high.Reachable A)
    (h : Compatible low high) (stamp : Nat) :
    ((∃ d, Circuit.tensor high low stamp = .ok d) ↔
      Roomy low high ∧ ∀ i, ¬ InTheWay low high stamp i) ∧
    (Roomy low high → ∀ e, Circuit.tensor high low stamp = .error e →
      ∃ i, InTheWay low high stamp i ∧ e = .identifierShadowing i.name) ∧
    ∀ i, InTheWay low high stamp i →
      BothDefault low high ∧ i.name = "c" ∨
        (BothDefault low high ∨ BothMeasured low high) ∧ high.content.identifiers.contains i ∧
          ∃ n : Nat, i.name = "c" ++ toString n := by
  refine ⟨⟨?_, ?_⟩, fun hroom e he => ?_, fun i hi => hi.made hlow hhigh h⟩
  · rintro ⟨d, hd⟩
    refine ⟨?_, not_inTheWay_of_tensor hlow hhigh h.closed hd⟩
    obtain ⟨hqubits, hclbits⟩ := tensor_sizes hlow hhigh hd
    have hsound := (hhigh.tensor hlow hd).built.orderly
    exact ⟨hqubits ▸ hsound.qubits.size, hclbits ▸ hsound.clbits.size⟩
  · rintro ⟨hroom, hnone⟩
    rcases tensor_cases h hroom hlow hhigh stamp with hd | ⟨i, hi, -⟩
    · exact hd
    · exact absurd hi (hnone i)
  · rcases tensor_cases h hroom hlow hhigh stamp with ⟨d, hd⟩ | ⟨i, hi, hrefused⟩
    · rw [hd] at he
      cases he
    · exact ⟨i, hi, Except.error.inj (he.symm.trans hrefused)⟩

/-- Nothing is in the way of two circuits without identifiers. -/
theorem tensor_accepts_copiesMeasured : (copiesMeasured 1).Reachable .any ∧
    (copiesMeasured 2).Reachable .any ∧ Compatible (copiesMeasured 1) (copiesMeasured 2) ∧
    ∃ d, tensor (copiesMeasured 2) (copiesMeasured 1) 3 = .ok d := by
  have hlow := copiesMeasured_reachable 1
  have hhigh := copiesMeasured_reachable 2
  have hcompatible : Compatible (copiesMeasured 1) (copiesMeasured 2) := by decide +kernel
  obtain ⟨haccepts, -, hnames⟩ := hlow.tensor_accepts hhigh hcompatible 3
  refine ⟨hlow, hhigh, hcompatible, haccepts.2
    ⟨⟨by decide +kernel, by decide +kernel⟩, fun i hi => ?_⟩⟩
  rcases hnames i hi with ⟨hdefault, -⟩ | ⟨-, hcontains, -⟩
  · exact absurd hdefault (by decide +kernel)
  · have hnone : (copiesMeasured 2).content.identifiers.toList = [] := by decide +kernel
    obtain ⟨kind, hmem⟩ := IdentifierTable.mem_toList_of_contains hcontains
    rw [hnone] at hmem
    exact List.not_mem_nil hmem

/-- One bit that is measured into, and an input variable under the name of a first alias. -/
def countsC0 (stamp : Nat) : Circuit :=
  ⟨"m", Content.empty.after
    [.addRegister .classical (Register.make .classical "meas" 1 stamp),
      .addIdentifier (.var ⟨"c0", .bool, ⟨stamp, 1⟩⟩) .input], []⟩

theorem countsC0_reachable (stamp : Nat) : (countsC0 stamp).Reachable .any :=
  .ofStore "m" (.empty_after rfl)

/-- The one register that two become is not the one that the copy is over, so the first alias is
made; and then it is in the way. -/
theorem tensor_refuses_compatible : (copiesMeasured 1).Reachable .any ∧
    (countsC0 2).Reachable .any ∧ Compatible (copiesMeasured 1) (countsC0 2) ∧
    Roomy (copiesMeasured 1) (countsC0 2) ∧
    tensor (countsC0 2) (copiesMeasured 1) 3 = .error (.identifierShadowing "c0") :=
  ⟨copiesMeasured_reachable 1, countsC0_reachable 2, by decide +kernel,
    ⟨by decide +kernel, by decide +kernel⟩, by rfl⟩

/-- A clbit without a register, and a variable under the name of a default register. -/
def declaresC (stamp : Nat) : Circuit :=
  ⟨"m", Content.empty.after
    [.addRegister .quantum (Register.make .quantum "q" 1 stamp),
      .addBit .classical (.loose .classical ⟨stamp, 1⟩),
      .addIdentifier (.var ⟨"c", .bool, ⟨stamp, 2⟩⟩) .declare], []⟩

example : Compatible (declaresC 1) (withSize "m" 1 0 2) ∧
    tensor (withSize "m" 1 0 2) (declaresC 1) 3 = .error (.identifierShadowing "c") :=
  ⟨by decide +kernel, by rfl⟩

end Circuit

end QuantumCircuit
