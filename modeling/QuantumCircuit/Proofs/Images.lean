import QuantumCircuit.Proofs.Composed
import QuantumCircuit.Proofs.Rewriting

/-!
# What identifiers become in a composition

A composition onto a circuit without open blocks that answers, and does not wrap, comes with a
map of identifiers. It sends each identifier of the source to what that is resolved to, which is
of the same sort and type, and leaves all others alone. The records that come in are those of the
source rewritten under this map, at every depth (`Circuit.Reachable.compose_rewrites`).
-/

namespace QuantumCircuit

namespace IdentifierRemap

variable {r : IdentifierRemap} {i j : Identifier} {stamp : Nat} {identifiers : List Identifier}
  {m : Renaming}

theorem type_resolve {identity : Identity} (h : r.resolve i identity = .ok j) :
    j.type = i.type := by
  unfold resolve at h
  split at h
  · cases h
    rfl
  · split at h <;> cases h
    · rfl
    · cases i <;> rfl
  · split at h
    · cases h
    · split at h
      · cases h
      · rename_i htype
        cases h
        exact Decidable.not_not.1 htype

/-- An identifier that is not listed stays. -/
theorem apply_images_of_not_mem (h : r.images stamp identifiers = .ok m) (hi : i ∉ identifiers) :
    m.apply i = i := by
  have hnone : Assoc.find? i m = none :=
    (Assoc.find?_eq_none_iff _ _).2 (by rwa [keys_images h])
  rw [Renaming.apply, hnone, Option.getD_none]

/-- Images are of the sort and type of what they stand for. -/
theorem typed_images (h : r.images stamp identifiers = .ok m) : m.Typed := by
  have hall : ∀ i, (m.apply i).sort = i.sort ∧ (m.apply i).type = i.type := by
    intro i
    unfold Renaming.apply
    cases hfind : Assoc.find? i m with
    | none => exact ⟨rfl, rfl⟩
    | some j =>
      obtain ⟨e, -, hone⟩ :=
        Checking.exists_left (Checking.mapM_eq_ok_iff.1 h) (Assoc.mem_of_find? hfind)
      obtain ⟨image, himage, heq⟩ := Checking.bind_eq_ok_iff.1 hone
      cases heq
      exact ⟨sort_resolve himage, type_resolve himage⟩
  exact ⟨fun i => (hall i).1, fun i => (hall i).2⟩

end IdentifierRemap

namespace Circuit

variable {c source d : Circuit} {o : ComposeOptions}

/-- What a composition makes of the records of the source under the map `m` of identifiers. -/
structure Rewrites (c source : Circuit) (o : ComposeOptions) (d : Circuit) (m : Renaming) :
    Prop where
  /-- An identifier of the source is resolved at its place in the list of all. -/
  resolved : ∀ k e, source.content.identifiers.toList[k]? = some e →
    o.remap.resolve e.1 ⟨o.stamp, k⟩ = .ok (m.apply e.1)
  /-- What the source does not have itself stays: what a body of it declares. -/
  others : ∀ i, ¬ source.content.identifiers.contains i → m.apply i = i
  typed : m.Typed
  /-- At the top clbits and registers are replaced too, in bodies identifiers only. -/
  records : ∃ moved,
    List.Forall₂
      (Instruction.Rewritten (typed.onto (ClbitGoes source o d)) (Circuit.Rewritten typed.inBodies)
        (fun q q' => (o.qubitTargets source)[q]? = some q')
        (fun b b' => (o.clbitTargets source)[b]? = some b'))
      source.content.records moved ∧
    d.content.records =
      if o.front then moved ++ c.content.records else c.content.records ++ moved

/-- The records of a composition that answers are rewritten under one map of identifiers, their
expressions, conditions, switch targets, durations and bodies. -/
theorem Reachable.compose_rewrites {A : Policy} (hc : c.Reachable A) (hsource : source.Reachable A)
    (hopen : c.blocks = []) (hwrap : o.wrap = false) (h : Circuit.compose source o c = .ok () d) :
    ∃ m, Rewrites c source o d m := by
  obtain ⟨p, s, images, u, hout⟩ := compose_outcome hc hsource hopen hwrap h
  have hresolved := hout.settled.resolved
  have htyped := IdentifierRemap.typed_images hresolved
  have hlisted := hsource.listed
  obtain ⟨hqubits, hclbits⟩ := place_targets hout.place
  refine ⟨images, fun k e he => ?_, fun i hi => ?_, htyped, s.records, ?_, hout.records⟩
  · refine IdentifierRemap.apply_images hresolved hlisted.nodup_toList ?_
    rw [List.getElem?_map, he, Option.map_some]
  · exact IdentifierRemap.apply_images_of_not_mem hresolved fun hmem =>
      hi (hlisted.contains_iff.2 hmem)
  · rw [← hqubits, ← hclbits]
    refine List.forall₂_iff_get.2 ⟨hout.moved.length_eq, fun k hk hk' => ?_⟩
    obtain ⟨op, hop, hi'⟩ := hout.moved.get hk hk'
    have hmem := List.get_mem source.content.records ⟨k, hk⟩
    have hfits := hsource.built.orderly.fits _ hmem
    have hgoes := fun b b' (hb : (c.spliceMap source p images).clbit b = .ok b') =>
      clbitGoes_of_clbit hout.placed hout.place hout.clbits hb
    have hoperation := LeafMap.rewritten_of_operationAmong htyped hgoes
      (fun e he => hsource.built.inside (Content.mem_circuits_iff.2 ⟨_, hmem, he⟩)) hop
    have hq := forall₂_targets hout.placed.qubits hfits.qubits
    have hb := forall₂_targets (hout.placed.clbits_width hout.clbits) hfits.clbits
    rw [hi']
    exact .of_fields hoperation hq hb rfl

/-- The body of a loop: a variable from outside is copied to itself. -/
def copiesVariable : Circuit :=
  let v : Var := ⟨"x", .uint 8, ⟨1, 0⟩⟩
  ⟨"while_body", Content.empty.after
    [.addIdentifier (.var v) .capture, .push (.make (.store ⟨.var v, .var v⟩) [] [])], []⟩

/-- A loop that goes on while the variable that its body copies is what it is. -/
def copiesVariableInLoop : Circuit :=
  let v : Var := ⟨"x", .uint 8, ⟨1, 0⟩⟩
  let same : Condition := .expr (.binary .equal (.var v) (.var v) .bool)
  ⟨"s", Content.empty.after
    [.addIdentifier (.var v) .declare,
      .push (.make (.control (.whileLoop same copiesVariable)) [] [])], []⟩

/-- The variable is to be called `y`. -/
def callsY : ComposeOptions where
  remap := IdentifierRemap.empty.addName "x" (.named "y")
  stamp := 2

theorem copiesVariableInLoop_reachable : copiesVariableInLoop.Reachable .any := by
  have hbody : copiesVariable.content.Built .any :=
    Content.Built.empty.after_of_circuits fun e he => absurd he List.not_mem_nil
  exact .ofStore "s" (Content.Built.empty.after_of_circuits fun e he => by
    rwa [List.mem_singleton.1 he])

theorem compose_copiesVariableInLoop_answers :
    ∃ d, compose copiesVariableInLoop callsY (.empty "d") = .ok () d := by
  have hok : ((compose copiesVariableInLoop callsY).finalState (.empty "d")).isOk = true := by
    decide +kernel
  cases hrun : compose copiesVariableInLoop callsY (.empty "d") with
  | ok a d => exact ⟨d, rfl⟩
  | error e d => simp [Edit.finalState, hrun, Except.isOk, Except.toBool] at hok

/-- The loop arrives with the variable under its new name, in the condition and in the body. -/
theorem compose_rewrites_loop : (Circuit.empty "d").Reachable .any ∧
    copiesVariableInLoop.Reachable .any ∧
    copiesVariableInLoop.content.circuits.map (·.content.records.length) = [1] ∧
    (Circuit.empty "d").blocks = [] ∧ callsY.wrap = false ∧
    ∃ d m, compose copiesVariableInLoop callsY (.empty "d") = .ok () d ∧
      m.apply (.var ⟨"x", .uint 8, ⟨1, 0⟩⟩) = .var ⟨"y", .uint 8, ⟨2, 0⟩⟩ ∧
      Rewrites (.empty "d") copiesVariableInLoop callsY d m := by
  have hempty := Reachable.empty (A := .any) "d"
  obtain ⟨d, hd⟩ := compose_copiesVariableInLoop_answers
  obtain ⟨m, hm⟩ := hempty.compose_rewrites copiesVariableInLoop_reachable rfl rfl hd
  have hlisted : copiesVariableInLoop.content.identifiers.toList =
      [(.var ⟨"x", .uint 8, ⟨1, 0⟩⟩, .declare)] := by decide +kernel
  have hresolved := hm.resolved 0 _ (by rw [hlisted]; rfl)
  refine ⟨hempty, copiesVariableInLoop_reachable, by decide +kernel, rfl, rfl, d, m, hd, ?_, hm⟩
  exact (Except.ok.inj hresolved).symm

end Circuit

end QuantumCircuit
