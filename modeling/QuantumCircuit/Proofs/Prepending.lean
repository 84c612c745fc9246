import QuantumCircuit.Proofs.Restoring
import QuantumCircuit.Proofs.Splicing

/-!
# Records put in front

Records are put in front all at once: each is checked against the index as it is, all of their
parameters together against it once, and then the index is built anew. Records are appended one
after another, each checked against an index that already has the parameters of those before it.
Both come down to one condition (`Content.Receives`): each record fits the store, and no two
parameters, of the records or in use, share a name (`Content.insertFront_answers_iff`,
`Content.each_push_answers_iff`). What comes of it is the same too, but for the places
(`Content.Built.insertFront_agrees_with_push`).
-/

namespace QuantumCircuit

/-- Where a site comes to be if the first `m` records change places with the `n` behind them. -/
def ParameterUse.swap (m n : Nat) : ParameterUse → ParameterUse
  | .phase => .phase
  | .record k slot => .record (if k < m then k + n else k - m) slot

theorem ParameterUse.swap_of_lt {k m : Nat} (h : k < m) (n slot : Nat) :
    (record k slot).swap m n = record (k + n) slot := by
  rw [swap, if_pos h]

theorem ParameterUse.swap_of_le {k m : Nat} (h : m ≤ k) (n slot : Nat) :
    (record k slot).swap m n = record (k - m) slot := by
  rw [swap, if_neg (Nat.not_lt.2 h)]

theorem ParameterTable.Apart.mono {S U : Parameter → Prop} (h : Apart U) (hSU : ∀ p, S p → U p) :
    Apart S := fun p q hp hq => h p q (hSU p hp) (hSU q hq)

namespace Content

variable {c d e : Content} {p : Parameter} {i : Instruction} {rs : List Instruction}

/-! ## Which records come in -/

/-- The parameters that the records bring. -/
def brought (rs : List Instruction) : List Parameter :=
  rs.flatMap fun i => i.operation.freeParameters.map (·.2)

theorem brought_cons :
    brought (i :: rs) = i.operation.freeParameters.map (·.2) ++ brought rs :=
  List.flatMap_cons

/-- That each of the records fits the store, and no two parameters of theirs and of the store share
a name. -/
structure Receives (c : Content) (rs : List Instruction) : Prop where
  fits : ∀ i ∈ rs, i.Fits c
  apart : ParameterTable.Apart fun p => c.table.contains p ∨ p ∈ brought rs

namespace Receives

/-- Such records come in at either end. -/
theorem addRecords_ok (h : c.Receives rs) (hc : c.Named) (hclbits : c.clbits.Sound)
    (front : Bool) : ∃ d, addRecords front rs c = .ok () d := by
  have hover : c.table.Over fun p => c.table.contains p ∨ p ∈ brought rs :=
    ⟨hc.wellFormed, hc.resolves, fun _ => .inl⟩
  obtain ⟨t, ht⟩ := Content.addRecords_ok hclbits (.of_over hover h.apart) h.fits
    (fun i hi u hu => .inr (List.mem_flatMap.2 ⟨i, hi, List.mem_map_of_mem hu⟩)) front
  exact ⟨_, ht⟩

end Receives

theorem insertFront_answers_iff (hc : c.Named) (hclbits : c.clbits.Sound) :
    (∃ d, insertFront rs c = .ok () d) ↔ c.Receives rs := by
  refine ⟨fun ⟨d, hd⟩ => ?_, fun h => h.addRecords_ok hc hclbits true⟩
  obtain ⟨hchecks, hbatch, -⟩ := insertFront_eq_ok_iff.1 hd
  exact ⟨fun i hi => ((check_eq_ok_iff hclbits).1 (hchecks i hi)).1,
    hc.resolves.apart_of_check hbatch⟩

/-- What the records behind the first bring has been checked with the parameters of the first in
use by then. -/
theorem each_push_answers_iff (hc : c.Named) (hclbits : c.clbits.Sound) :
    (∃ e, Edit.each push rs c = .ok () e) ↔ c.Receives rs := by
  refine ⟨?_, fun h => h.addRecords_ok hc hclbits false⟩
  rintro ⟨e, he⟩
  induction rs generalizing c with
  | nil =>
    refine ⟨fun i hi => absurd hi List.not_mem_nil, hc.resolves.apart.mono fun p hp => ?_⟩
    exact hp.resolve_right List.not_mem_nil
  | cons i rest ih =>
    obtain ⟨_, u, hi, hrest⟩ := Edit.bind_eq_ok_iff.1 he
    obtain ⟨hcheck, rfl⟩ := push_eq_ok_iff.1 hi
    obtain ⟨hfits, hapart⟩ := ih (hc.snoc hcheck) hclbits hrest
    refine ⟨List.forall_mem_cons.2 ⟨((check_eq_ok_iff hclbits).1 hcheck).1, fun j hj =>
      (hfits j hj).within ⟨.refl _, .refl _, fun _ h => h⟩⟩, hapart.mono fun p hp => ?_⟩
    rw [hc.toIndexed.contains_snoc_iff]
    rcases hp with hp | hp
    · exact .inl (.inl hp)
    · rw [brought_cons, List.mem_append, List.mem_map] at hp
      exact hp.elim (fun hp => .inl (.inr hp)) .inr

/-! ## Where their parameters are then -/

/-- Appended records stand behind those that were there, and the index is in step. -/
theorem Indexed.each_push (hc : c.Indexed) (he : Edit.each push rs c = .ok () e) :
    e.Indexed ∧ e.records = c.records ++ rs ∧ e.phase = c.phase := by
  induction rs generalizing c with
  | nil =>
    cases he
    exact ⟨hc, (List.append_nil _).symm, rfl⟩
  | cons i rest ih =>
    obtain ⟨_, u, hi, hrest⟩ := Edit.bind_eq_ok_iff.1 he
    obtain ⟨-, rfl⟩ := push_eq_ok_iff.1 hi
    obtain ⟨hindexed, hrecords, hphase⟩ := ih (hc.snoc i) hrest
    exact ⟨hindexed, hrecords.trans (List.append_assoc _ _ _), hphase⟩

/-- What is listed at a site is listed where the site comes to be. -/
theorem ListsAt.swap {old new : List Instruction} {site : ParameterUse}
    (hc : c.records = old ++ new) (hd : d.records = new ++ old) (hphase : d.phase = c.phase)
    (h : c.ListsAt p site) : d.ListsAt p (site.swap old.length new.length) ∧
      (site.swap old.length new.length).swap new.length old.length = site := by
  cases site with
  | phase =>
    refine ⟨?_, rfl⟩
    show p ∈ d.phase.parameters
    exact hphase ▸ h
  | record k slot =>
    obtain ⟨i, hi, hmem⟩ := mem_freeAt_iff.1 h
    rw [hc] at hi
    rcases Nat.lt_or_ge k old.length with hlt | hge
    · rw [ParameterUse.swap_of_lt hlt, ParameterUse.swap_of_le (Nat.le_add_left _ _),
        Nat.add_sub_cancel]
      rw [List.getElem?_append_left hlt] at hi
      refine ⟨mem_freeAt_iff.2 ⟨i, ?_, hmem⟩, rfl⟩
      rw [hd, List.getElem?_append_right (Nat.le_add_left _ _), Nat.add_sub_cancel, hi]
    · rw [List.getElem?_append_right hge] at hi
      have hlt : k - old.length < new.length := (List.getElem?_eq_some_iff.1 hi).1
      rw [ParameterUse.swap_of_le hge, ParameterUse.swap_of_lt hlt, Nat.sub_add_cancel hge]
      refine ⟨mem_freeAt_iff.2 ⟨i, ?_, hmem⟩, rfl⟩
      rw [hd, List.getElem?_append_left hlt, hi]

/-- Each site once. -/
theorem Indexed.nodup_sites (hc : c.Indexed) (p : Parameter) : (c.sites p).Nodup := by
  unfold sites
  cases hsites : c.table.uses? p with
  | none => exact .nil
  | some sites => exact (hc.wellFormed.sites p sites hsites).1

/-- Two stores of the same records, the first ones and those behind them the other way round, have
the same parameters down at the sites that change places with them. -/
theorem Indexed.perm_sites_swap {old new : List Instruction} (hc : c.Indexed) (hd : d.Indexed)
    (hold : c.records = old ++ new) (hnew : d.records = new ++ old) (hphase : d.phase = c.phase) :
    (d.sites p).Perm ((c.sites p).map (·.swap old.length new.length)) := by
  have hthere : ∀ site ∈ c.sites p, site.swap old.length new.length ∈ d.sites p ∧
      (site.swap old.length new.length).swap new.length old.length = site := by
    intro site hsite
    rw [mem_sites_iff, hd.notes]
    exact ((hc.notes _ _).1 (mem_sites_iff.1 hsite)).swap hold hnew hphase
  have hback : ∀ site ∈ d.sites p, site.swap new.length old.length ∈ c.sites p ∧
      (site.swap new.length old.length).swap old.length new.length = site := by
    intro site hsite
    rw [mem_sites_iff, hc.notes]
    exact ((hd.notes _ _).1 (mem_sites_iff.1 hsite)).swap hnew hold hphase.symm
  have hinjective : ((c.sites p).map (·.swap old.length new.length)).Nodup := by
    refine List.Nodup.map_on (fun a ha b hb heq => ?_) (hc.nodup_sites p)
    rw [← (hthere a ha).2, ← (hthere b hb).2, heq]
  refine (List.perm_ext_iff_of_nodup (hd.nodup_sites p) hinjective).2 fun site => ?_
  rw [List.mem_map]
  constructor
  · exact fun hsite => ⟨_, hback site hsite⟩
  · rintro ⟨at_, hat, rfl⟩
    exact (hthere at_ hat).1

/-- In a built store in which each parameter in use is found by its name: records come in at the
front, all at once, exactly if they are all accepted at the end, one after another. They stand
before the old ones then. Each parameter is down where it is when the records are at the end, but
the places of the old records are higher by the number of the new ones, and those of the new ones
lower by the number of the old. -/
theorem Built.insertFront_agrees_with_push {A : Policy} (hc : c.Built A) (hnames : c.FoundByName)
    (rs : List Instruction) :
    ((∃ d, Content.insertFront rs c = .ok () d) ↔ ∃ e, Edit.each Content.push rs c = .ok () e) ∧
      ∀ d e, Content.insertFront rs c = .ok () d → Edit.each Content.push rs c = .ok () e →
        d.records = rs ++ c.records ∧ e.records = c.records ++ rs ∧
        ∀ p, (d.sites p).Perm ((e.sites p).map (·.swap c.records.length rs.length)) := by
  have hnamed := hc.named hnames
  have hclbits := hc.orderly.clbits
  refine ⟨(insertFront_answers_iff hnamed hclbits).trans
    (each_push_answers_iff hnamed hclbits).symm, fun d e hd he => ?_⟩
  obtain ⟨-, -, rfl⟩ := insertFront_eq_ok_iff.1 hd
  obtain ⟨hindexed, hrecords, hphase⟩ := hc.indexed.each_push he
  refine ⟨rfl, hrecords, fun p => ?_⟩
  exact hindexed.perm_sites_swap (Indexed.withRecords c _) hrecords rfl hphase.symm

/-- A rotation of a qubit by the parameter of that name. -/
def rotationNamed (name : String) (serial : Nat) : Instruction :=
  .make (.gate (.rotation .rz (.sym ⟨name, ⟨0, serial⟩, none⟩))) [0] []

/-- Rotations by `a` and by `b`. -/
def twoRotations : Content :=
  Content.empty.after [.addBit .quantum (.loose .quantum ⟨1, 0⟩), .push (rotationNamed "a" 0),
    .push (rotationNamed "b" 1)]

/-- Rotations by `b` and by `c` come in before them. Two by different parameters called `c` do not,
though the store has no `c`. -/
theorem insertFront_twoRotations : twoRotations.Built .any ∧ twoRotations.FoundByName ∧
    (∃ d e, Content.insertFront [rotationNamed "b" 1, rotationNamed "c" 2] twoRotations = .ok () d ∧
      Edit.each Content.push [rotationNamed "b" 1, rotationNamed "c" 2] twoRotations = .ok () e ∧
      e.sites ⟨"b", ⟨0, 1⟩, none⟩ = [.record 1 0, .record 2 0] ∧
      (d.sites ⟨"b", ⟨0, 1⟩, none⟩).Perm [.record 3 0, .record 0 0]) ∧
    (¬ ∃ d, Content.insertFront [rotationNamed "c" 2, rotationNamed "c" 3] twoRotations =
      .ok () d) ∧
      ¬ ∃ e, Edit.each Content.push [rotationNamed "c" 2, rotationNamed "c" 3] twoRotations =
        .ok () e := by
  have hbuilt : twoRotations.Built .any := .empty_after rfl
  have hnames : twoRotations.FoundByName := by
    refine (named_invariant.empty.after fun k hk => ?_).foundByName
    simp only [List.mem_cons, List.not_mem_nil, or_false] at hk
    rcases hk with rfl | rfl | rfl <;> exact fun s strict heq => by cases heq
  have hagree := hbuilt.insertFront_agrees_with_push hnames
  have hclash : ¬ ∃ d,
      Content.insertFront [rotationNamed "c" 2, rotationNamed "c" 3] twoRotations = .ok () d := by
    rintro ⟨d, hd⟩
    exact absurd (insertFront_eq_ok_iff.1 hd).2.1 (by decide +kernel)
  refine ⟨hbuilt, hnames, ?_, hclash, fun h => hclash ((hagree _).1.2 h)⟩
  obtain ⟨e, he⟩ : ∃ e, Edit.each Content.push [rotationNamed "b" 1, rotationNamed "c" 2]
    twoRotations = .ok () e := Edit.answers_of_isOk (by decide +kernel)
  obtain ⟨d, hd⟩ := (hagree _).1.2 ⟨e, he⟩
  obtain ⟨-, -, hsites⟩ := (hagree _).2 d e hd he
  have hlisted : e.sites ⟨"b", ⟨0, 1⟩, none⟩ = [.record 1 0, .record 2 0] := by
    cases he
    decide +kernel
  exact ⟨d, e, hd, he, hlisted, (hlisted ▸ hsites ⟨"b", ⟨0, 1⟩, none⟩ :)⟩

end Content

end QuantumCircuit
