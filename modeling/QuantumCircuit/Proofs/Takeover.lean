import QuantumCircuit.Proofs.Naming
import Mathlib.Order.WithBot
import Mathlib.Tactic.Tauto

/-!
# Names while an index is changed place by place

An assignment goes through the records in order and then to the phase; at each
place it untracks all that was there and tracks all that is there now. A parameter
that comes in under the name of one that is still in use takes the name over, and
loses it when the last use of the other goes.

`Underway` is the invariant of such a pass: which sites are noted, that a parameter
in use is found by its name unless another has the name or it overtook one, and
that one that overtook another is lost when the other goes. After the whole pass
names resolve exactly when no two parameters share a name and none overtook another
(`Underway.resolves_iff`).
-/

namespace QuantumCircuit

/-- Where the site is: at a record, or, after all records, in the phase. -/
def ParameterUse.place : ParameterUse → WithTop Nat
  | .record k _ => .some k
  | .phase => ⊤

namespace ParameterTable

/-- That `p`, which has the name of `q`, comes in before the last old site of `q`. -/
def Overtakes (Old New : ParameterUse → Parameter → Prop) (p q : Parameter) : Prop :=
  p ≠ q ∧ p.name = q.name ∧ ∃ a b, Old a q ∧ New b p ∧ b.place < a.place

/-- What is known of names at any moment of a pass from `Old` to `New` that has gone
through the places in `Done`. -/
structure NamesKept (Old New : ParameterUse → Parameter → Prop) (Done : WithTop Nat → Prop)
    (t : ParameterTable) : Prop where
  wellFormed : t.WellFormed
  honest : t.Honest
  named : ∀ p, t.contains p → t.named? p.name = some p ∨
    (∃ r, t.contains r ∧ r ≠ p ∧ r.name = p.name) ∨ ∃ q, Overtakes Old New p q
  lost : ∀ p q a b, p ≠ q → p.name = q.name → Old a q → New b p → b.place < a.place →
    Done b.place → t.contains q ∨ t.named? p.name ≠ some p

/-- The index between two places of a pass. -/
structure Underway (Old New : ParameterUse → Parameter → Prop) (Done : WithTop Nat → Prop)
    (t : ParameterTable) : Prop extends NamesKept Old New Done t where
  notes : ∀ site p, t.Notes site p ↔
    Done site.place ∧ New site p ∨ ¬ Done site.place ∧ Old site p

variable {Old New : ParameterUse → Parameter → Prop} {k : WithTop Nat} {t : ParameterTable}
  {site : ParameterUse} {p q : Parameter}

/-- That no two parameters with an old site share a name. -/
def NamesApart (Old : ParameterUse → Parameter → Prop) : Prop :=
  ∀ p q a b, Old a p → Old b q → p.name = q.name → p = q

namespace NamesKept

/-- Untracking at place `k`. If the name of another parameter is forgotten with `q`,
that parameter came in before. -/
theorem untrack (h : NamesKept Old New (· < k) t) (hold : NamesApart Old) (hq : Old site q)
    (hplace : site.place = k)
    (hnotes : ∀ at_ p, t.Notes at_ p → at_.place < k ∧ New at_ p ∨ Old at_ p) :
    NamesKept Old New (· < k) (t.untrack site q) := by
  refine ⟨h.wellFormed.untrack site q, h.honest.untrack h.wellFormed site q, ?_, ?_⟩
  · intro p hp
    have hpt := h.wellFormed.contains_of_untrack hp
    by_cases hforgot : t.contains q ∧ ¬ (t.untrack site q).contains q ∧ q.name = p.name
    · obtain ⟨-, hgone, hname⟩ := hforgot
      have hne : p ≠ q := fun heq => hgone (heq ▸ hp)
      refine .inr (.inr ⟨q, hne, hname.symm, ?_⟩)
      obtain ⟨b, hb⟩ := h.wellFormed.contains_iff.1 hpt
      rcases hnotes b p hb with ⟨hlt, hnew⟩ | hb
      · exact ⟨site, b, hq, hnew, hplace ▸ hlt⟩
      · exact absurd (hold p q b site hb hq hname.symm) hne
    · have hsame : (t.untrack site q).named? p.name = t.named? p.name := by
        rw [named?_untrack, if_neg hforgot]
      rcases h.named p hpt with hnamed | ⟨r, hr, hne, hname⟩ | hover
      · exact .inl (hsame.trans hnamed)
      · by_cases hrq : r = q
        · subst hrq
          by_cases hrgone : (t.untrack site r).contains r
          · exact .inr (.inl ⟨r, hrgone, hne, hname⟩)
          · exact absurd ⟨hr, hrgone, hname⟩ hforgot
        · exact .inr (.inl ⟨r, (h.wellFormed.contains_untrack_of_ne hrq).2 hr, hne, hname⟩)
      · exact .inr (.inr hover)
  · intro p' q' a b hne hname ha hb hlt hdone
    rw [named?_untrack]
    rcases h.lost p' q' a b hne hname ha hb hlt hdone with hq' | hlost
    · by_cases hgone : (t.untrack site q).contains q'
      · exact .inl hgone
      · have heq : q' = q := by
          by_contra hneq
          exact hgone ((h.wellFormed.contains_untrack_of_ne hneq).2 hq')
        subst heq
        exact .inr (by rw [if_pos ⟨hq', hgone, hname.symm⟩]; simp)
    · refine .inr ?_
      split
      · simp
      · exact hlost

/-- Tracking at place `k`. A parameter that came in earlier is in use and is not
found again by coming in once more. -/
theorem track (h : NamesKept Old New (· < k) t) (site : ParameterUse) (p : Parameter)
    (hnew : ∀ b p, New b p → b.place < k → t.contains p) :
    NamesKept Old New (· < k) (t.track site p) := by
  have hgrow : ∀ r, t.contains r → (t.track site p).contains r := fun r hr =>
    h.wellFormed.contains_track_iff.2 (.inl hr)
  refine ⟨h.wellFormed.track site p, h.honest.track h.wellFormed site p, ?_, ?_⟩
  · intro r hr
    -- if its name led somewhere before and still leads there, nothing is new about `r`
    have hkept : t.contains r → (t.track site p).named? r.name = t.named? r.name →
        (t.track site p).named? r.name = some r ∨
          (∃ r', (t.track site p).contains r' ∧ r' ≠ r ∧ r'.name = r.name) ∨
            ∃ q, Overtakes Old New r q := by
      intro hrt hsame
      rcases h.named r hrt with hnamed | ⟨r', hr', hne, hname⟩ | hover
      · exact .inl (hsame.trans hnamed)
      · exact .inr (.inl ⟨r', hgrow r' hr', hne, hname⟩)
      · exact .inr (.inr hover)
    by_cases hp : t.contains p
    · have hrt : t.contains r := (h.wellFormed.contains_track_iff.1 hr).elim id (· ▸ hp)
      exact hkept hrt (by rw [named?_track, if_pos hp])
    by_cases hrp : r = p
    · subst hrp
      exact .inl (by rw [named?_track, if_neg hp, if_pos rfl])
    have hrt : t.contains r := (h.wellFormed.contains_track_iff.1 hr).resolve_right hrp
    by_cases hname : p.name = r.name
    · exact .inr (.inl ⟨p, h.wellFormed.contains_track_iff.2 (.inr rfl), Ne.symm hrp, hname⟩)
    · exact hkept hrt (by rw [named?_track, if_neg hp, if_neg hname])
  · intro p' q' a b hne hname ha hb hlt hdone
    rcases h.lost p' q' a b hne hname ha hb hlt hdone with hq' | hlost
    · exact .inl (hgrow q' hq')
    · refine .inr ?_
      rw [named?_track]
      split
      · exact hlost
      · rename_i hp
        split
        · intro heq
          cases heq
          exact hp (hnew b p hb hdone)
        · exact hlost

variable {l : List (ParameterUse × Parameter)}

theorem foldl_untrack (h : NamesKept Old New (· < k) t) (hold : NamesApart Old)
    (hl : ∀ u ∈ l, Old u.1 u.2 ∧ u.1.place = k)
    (hnotes : ∀ at_ p, t.Notes at_ p → at_.place < k ∧ New at_ p ∨ Old at_ p) :
    NamesKept Old New (· < k) (l.foldl (fun t u => t.untrack u.1 u.2) t) := by
  induction l generalizing t with
  | nil => exact h
  | cons u rest ih =>
    obtain ⟨hu, hrest⟩ := List.forall_mem_cons.1 hl
    refine ih (h.untrack hold hu.1 hu.2 hnotes) hrest fun at_ p hp => ?_
    exact hnotes at_ p (h.wellFormed.notes_untrack_iff.1 hp).1

theorem foldl_track (h : NamesKept Old New (· < k) t)
    (hnew : ∀ b p, New b p → b.place < k → t.contains p) :
    NamesKept Old New (· < k) (l.foldl (fun t u => t.track u.1 u.2) t) := by
  induction l generalizing t with
  | nil => exact h
  | cons u rest ih =>
    refine ih (h.track u.1 u.2 hnew) fun b p hb hlt => ?_
    exact h.wellFormed.contains_track_iff.2 (.inl (hnew b p hb hlt))

end NamesKept

/-! ## A whole pass -/

/-- What a pass does at one place. -/
structure Stage where
  place : WithTop Nat
  before : List (ParameterUse × Parameter)
  after : List (ParameterUse × Parameter)

/-- Untrack what was at the place, and track what is there now. -/
def stage (t : ParameterTable) (g : Stage) : ParameterTable :=
  g.after.foldl (fun t u => t.track u.1 u.2) (g.before.foldl (fun t u => t.untrack u.1 u.2) t)

/-- That the stage goes from `Old` to `New` at its place. -/
structure Stage.Between (Old New : ParameterUse → Parameter → Prop) (g : Stage) : Prop where
  before : ∀ site p, (site, p) ∈ g.before ↔ site.place = g.place ∧ Old site p
  after : ∀ site p, (site, p) ∈ g.after ↔ site.place = g.place ∧ New site p

namespace Underway

/-- Places at which nothing changes may count as done or not. -/
theorem skip {Done Done' : WithTop Nat → Prop} (h : Underway Old New Done t)
    (hold : NamesApart Old)
    (hsame : ∀ site p, ¬ (Done site.place ↔ Done' site.place) → (Old site p ↔ New site p)) :
    Underway Old New Done' t := by
  refine ⟨⟨h.wellFormed, h.honest, h.named, ?_⟩, fun site p => ?_⟩
  · intro p q a b hne hname ha hb hlt hdone
    by_cases hd : Done b.place
    · exact h.lost p q a b hne hname ha hb hlt hd
    · have hb' := (hsame b p (by tauto)).2 hb
      exact absurd (hold p q b a hb' ha hname) hne
  · have := hsame site p
    rw [h.notes]
    tauto

/-- One place further. -/
theorem stage (h : Underway Old New (· < k) t) (hold : NamesApart Old) {g : Stage}
    (hg : g.Between Old New) (hk : g.place = k) :
    Underway Old New (· ≤ k) (t.stage g) := by
  subst hk
  have hnotes : ∀ at_ p, t.Notes at_ p → at_.place < g.place ∧ New at_ p ∨ Old at_ p := by
    intro at_ p hp
    rcases (h.notes at_ p).1 hp with hp | ⟨-, hp⟩
    · exact .inl hp
    · exact .inr hp
  have hmid := h.toNamesKept.foldl_untrack (l := g.before) hold
    (fun u hu => ((hg.before u.1 u.2).1 hu).symm) hnotes
  have hmidnotes : ∀ site p, (g.before.foldl (fun t u => t.untrack u.1 u.2) t).Notes site p ↔
      site.place < g.place ∧ New site p ∨ g.place < site.place ∧ Old site p := by
    intro site p
    refine (h.wellFormed.notes_foldl_untrack_iff id g.before).trans ?_
    rw [h.notes, List.map_id, hg.before, not_lt, le_iff_lt_or_eq]
    constructor
    · rintro ⟨⟨hlt, hnew⟩ | ⟨hlt | heq, hold⟩, hnot⟩
      · exact .inl ⟨hlt, hnew⟩
      · exact .inr ⟨hlt, hold⟩
      · exact absurd ⟨heq.symm, hold⟩ hnot
    · rintro (⟨hlt, hnew⟩ | ⟨hlt, hold⟩)
      · exact ⟨.inl ⟨hlt, hnew⟩, fun hboth => hlt.ne hboth.1⟩
      · exact ⟨.inr ⟨.inl hlt, hold⟩, fun hboth => hlt.ne' hboth.1⟩
  have hlast := hmid.foldl_track (l := g.after) fun b p hb hlt =>
    hmid.wellFormed.contains_iff.2 ⟨b, (hmidnotes b p).2 (.inl ⟨hlt, hb⟩)⟩
  have hlastnotes : ∀ site p, (t.stage g).Notes site p ↔
      site.place ≤ g.place ∧ New site p ∨ ¬ site.place ≤ g.place ∧ Old site p := by
    intro site p
    refine (notes_foldl_track_iff id g.after).trans ?_
    rw [hmidnotes, List.map_id, hg.after, not_le, le_iff_lt_or_eq]
    tauto
  refine ⟨⟨hlast.wellFormed, hlast.honest, hlast.named, ?_⟩, hlastnotes⟩
  intro p q a b hne hname ha hb hlt hdone
  rcases lt_or_eq_of_le hdone with hdone | heq
  · exact hlast.lost p q a b hne hname ha hb hlt hdone
  · -- The new site is at this very place, so the old one is still to come.
    refine .inl (hlast.wellFormed.contains_iff.2 ⟨a, (hlastnotes a q).2 (.inr ⟨?_, ha⟩)⟩)
    rw [not_le, ← heq]
    exact hlt

/-- A pass through some places, in order, at all others of which nothing changes. -/
theorem pass {Done : WithTop Nat → Prop} {stages : List Stage} (h : Underway Old New Done t)
    (hold : NamesApart Old) (hstages : ∀ g ∈ stages, g.Between Old New)
    (hsorted : stages.Pairwise fun g g' => g.place < g'.place)
    (hdone : ∀ g ∈ stages, ∀ x, Done x → x < g.place)
    (hsame : ∀ site p, ¬ Done site.place → (∀ g ∈ stages, g.place ≠ site.place) →
      (Old site p ↔ New site p)) :
    Underway Old New (fun _ => True) (stages.foldl ParameterTable.stage t) := by
  induction stages generalizing t Done with
  | nil =>
    refine h.skip hold fun site p hdiff => hsame site p (by tauto) ?_
    exact fun g hg => absurd hg List.not_mem_nil
  | cons g rest ih =>
    obtain ⟨hg, hrest⟩ := List.forall_mem_cons.1 hstages
    obtain ⟨hfirst, hsorted⟩ := List.pairwise_cons.1 hsorted
    have hbefore : Underway Old New (· < g.place) t := by
      refine h.skip hold fun site p hdiff => ?_
      have hnot : ¬ Done site.place := fun hd =>
        hdiff (iff_of_true hd (hdone g List.mem_cons_self _ hd))
      have hlt : site.place < g.place := by
        by_contra hge
        exact hdiff (iff_of_false hnot hge)
      refine hsame site p hnot fun g' hg' => ?_
      rcases List.mem_cons.1 hg' with rfl | hg'
      · exact hlt.ne'
      · exact (hlt.trans (hfirst g' hg')).ne'
    refine ih (hbefore.stage hold hg rfl) hrest hsorted
      (fun g' hg' x hx => lt_of_le_of_lt hx (hfirst g' hg')) fun site p hnot hne => ?_
    refine hsame site p (fun hd => hnot (hdone g List.mem_cons_self _ hd).le) fun g' hg' => ?_
    rcases List.mem_cons.1 hg' with rfl | hg'
    · exact fun heq => hnot heq.ge
    · exact hne g' hg'

/-- At the start of a pass nothing is done. -/
theorem start (hwf : t.WellFormed) (ht : t.Resolves) (New : ParameterUse → Parameter → Prop) :
    Underway t.Notes New (fun _ => False) t :=
  ⟨⟨hwf, ht.honest, fun p hp => .inl ((ht p.name p).2 ⟨hp, rfl⟩), by simp⟩, by simp⟩

/-- After the pass, names resolve exactly when no two parameters share one and none
overtook another. -/
theorem resolves_iff (h : Underway Old New (fun _ => True) t) :
    t.Resolves ↔ NamesApart New ∧ ∀ p q, ¬ Overtakes Old New p q := by
  have hnotes : ∀ site p, t.Notes site p ↔ New site p := by simpa using h.notes
  have hcontains : ∀ p, t.contains p ↔ ∃ site, New site p := fun p => by
    rw [h.wellFormed.contains_iff]
    exact exists_congr fun site => hnotes site p
  constructor
  · intro ht
    refine ⟨fun p q a b ha hb => ht.eq_of_name_eq ((hcontains p).2 ⟨a, ha⟩)
      ((hcontains q).2 ⟨b, hb⟩), ?_⟩
    rintro p q ⟨hne, hname, a, b, ha, hb, hlt⟩
    have hp := (hcontains p).2 ⟨b, hb⟩
    rcases h.lost p q a b hne hname ha hb hlt trivial with hq | hlost
    · exact hne (ht.eq_of_name_eq hp hq hname)
    · exact hlost ((ht p.name p).2 ⟨hp, rfl⟩)
  · rintro ⟨hapart, hnone⟩ n p
    refine ⟨h.honest n p, ?_⟩
    rintro ⟨hp, rfl⟩
    rcases h.named p hp with hnamed | ⟨r, hr, hne, hname⟩ | ⟨q, hover⟩
    · exact hnamed
    · obtain ⟨a, ha⟩ := (hcontains r).1 hr
      obtain ⟨b, hb⟩ := (hcontains p).1 hp
      exact absurd (hapart r p a b ha hb hname) hne
    · exact absurd hover (hnone p q)

end Underway

end ParameterTable

end QuantumCircuit
