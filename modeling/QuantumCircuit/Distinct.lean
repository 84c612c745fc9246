/-!
# Lists without repeats

Sets that keep the order in which their members first came. Main statements: a
union holds exactly what its parts hold (`mem_union`), has no repeats if its
first part has none (`nodup_union`) and is its first part exactly if the second
brings nothing new (`union_eq_self_iff`); `firstRepeat?` finds nothing exactly in the
lists without repeats (`firstRepeat?_eq_none_iff`), and looking every entry up among
those before it finds the same repeat as collecting the entries
(`firstRepeatInPlace?_eq`).
-/

namespace QuantumCircuit.Distinct

variable {α : Type} [BEq α]

/-- Add `x` at the end, unless it is there. -/
def insert (x : α) (xs : List α) : List α := if xs.contains x then xs else xs ++ [x]

/-- Add the members of `ys` in order. -/
def union (xs ys : List α) : List α := ys.foldl (fun acc y => insert y acc) xs

/-- The members of `xs` in order of first occurrence. -/
def ofList (xs : List α) : List α := union [] xs

/-- The first entry that came before, when `seen` are those before the list. -/
def firstRepeatAfter? (seen : List α) : List α → Option α
  | [] => none
  | x :: rest => if seen.contains x then some x else firstRepeatAfter? (x :: seen) rest

/-- The entry at the least position that holds an entry of an earlier position. The
entries passed are collected. -/
def firstRepeat? (xs : List α) : Option α := firstRepeatAfter? [] xs

/-- The same entry, looked for without a collection: position by position, each entry
is compared with those before it. -/
def firstRepeatInPlace? (xs : List α) : Option α :=
  (List.range' 1 (xs.length - 1)).findSome? fun i => xs[i]?.filter fun x => (xs.take i).contains x

theorem mem_insert [LawfulBEq α] (a x : α) (xs : List α) : a ∈ insert x xs ↔ a ∈ xs ∨ a = x := by
  unfold insert
  split
  · rename_i h
    have hx : x ∈ xs := by simpa using h
    constructor
    · exact Or.inl
    · rintro (ha | rfl) <;> assumption
  · simp

theorem mem_union [LawfulBEq α] (a : α) (xs ys : List α) : a ∈ union xs ys ↔ a ∈ xs ∨ a ∈ ys := by
  unfold union
  induction ys generalizing xs with
  | nil => simp
  | cons y rest ih => simp [ih, mem_insert, or_assoc]

/-- Whatever equality there is, a union has no members of its own. -/
theorem mem_of_mem_union {a : α} {xs ys : List α} (h : a ∈ union xs ys) : a ∈ xs ∨ a ∈ ys := by
  unfold union at h
  induction ys generalizing xs with
  | nil => exact .inl h
  | cons y rest ih =>
    rcases ih h with h | h
    · simp only [insert] at h
      split at h
      · exact .inl h
      · rcases List.mem_append.1 h with h | h
        · exact .inl h
        · exact .inr (List.mem_singleton.1 h ▸ List.mem_cons_self)
    · exact .inr (List.mem_cons_of_mem y h)

theorem nodup_insert [LawfulBEq α] (x : α) {xs : List α} (h : xs.Nodup) : (insert x xs).Nodup := by
  unfold insert
  split
  · exact h
  · rename_i hx
    have hx : x ∉ xs := by simpa using hx
    rw [List.nodup_append]
    exact ⟨h, by simp, fun a ha b hb => by
      rw [List.mem_singleton] at hb
      subst hb
      exact fun e => hx (e ▸ ha)⟩

theorem nodup_union [LawfulBEq α] {xs : List α} (ys : List α) (h : xs.Nodup) :
    (union xs ys).Nodup := by
  unfold union
  induction ys generalizing xs with
  | nil => exact h
  | cons y rest ih => exact ih (nodup_insert y h)

theorem prefix_insert {x : α} {xs : List α} : xs <+: insert x xs := by
  unfold insert
  split
  · exact List.prefix_rfl
  · exact List.prefix_append xs [x]

theorem prefix_union {xs ys : List α} : xs <+: union xs ys := by
  induction ys generalizing xs with
  | nil => exact List.prefix_rfl
  | cons y rest ih =>
    show xs <+: union (insert y xs) rest
    exact prefix_insert.trans ih

/-- A union with what is there already is nothing new, and with anything else it is. -/
theorem union_eq_self_iff {xs ys : List α} : union xs ys = xs ↔ ∀ y ∈ ys, xs.contains y := by
  induction ys with
  | nil => exact iff_of_true rfl fun _ h => absurd h List.not_mem_nil
  | cons y rest ih =>
    rw [List.forall_mem_cons]
    by_cases hy : xs.contains y
    · have hinsert : insert y xs = xs := if_pos hy
      rw [← ih, and_iff_right hy]
      show union (insert y xs) rest = xs ↔ _
      rw [hinsert]
    · refine iff_of_false (fun hunion => ?_) fun h => hy h.1
      -- the list has grown by `y`
      have hlonger : xs.length < (union (insert y xs) rest).length := by
        refine Nat.lt_of_lt_of_le ?_ prefix_union.length_le
        rw [insert, if_neg hy, List.length_append]
        exact Nat.lt_succ_self _
      exact absurd (congrArg List.length hunion) (Nat.ne_of_gt hlonger)

theorem firstRepeatAfter?_eq_none_iff [LawfulBEq α] (seen xs : List α) :
    firstRepeatAfter? seen xs = none ↔ (∀ x ∈ xs, x ∉ seen) ∧ xs.Nodup := by
  induction xs generalizing seen with
  | nil => simp [firstRepeatAfter?]
  | cons x rest ih =>
    unfold firstRepeatAfter?
    split
    · rename_i h
      have hx : x ∈ seen := by simpa using h
      simp [hx]
    · rename_i h
      have hx : x ∉ seen := by simpa using h
      rw [ih, List.nodup_cons]
      constructor
      · rintro ⟨hs, hn⟩
        refine ⟨fun y hy => ?_, fun hmem => ?_, hn⟩
        · rcases List.mem_cons.1 hy with rfl | hy
          · exact hx
          · exact fun hys => hs y hy (List.mem_cons_of_mem x hys)
        · exact hs x hmem List.mem_cons_self
      · rintro ⟨hs, hn, hr⟩
        refine ⟨fun y hy hys => ?_, hr⟩
        rcases List.mem_cons.1 hys with rfl | hys
        · exact hn hy
        · exact hs y (List.mem_cons_of_mem x hy) hys

theorem firstRepeat?_eq_none_iff [LawfulBEq α] (xs : List α) :
    firstRepeat? xs = none ↔ xs.Nodup := by
  simp [firstRepeat?, firstRepeatAfter?_eq_none_iff]

/-- Past the entries of `seen`, comparing goes on as collecting does. -/
theorem findSome?_inPlace (seen xs : List α) :
    ((List.range' seen.length xs.length).findSome? fun i =>
      (seen.reverse ++ xs)[i]?.filter fun x => ((seen.reverse ++ xs).take i).contains x) =
      firstRepeatAfter? seen xs := by
  induction xs generalizing seen with
  | nil => rfl
  | cons x rest ih =>
    have hhere : (seen.reverse ++ x :: rest)[seen.length]? = some x := by simp
    have hbefore : (seen.reverse ++ x :: rest).take seen.length = seen.reverse := by simp
    have hnext := ih (x :: seen)
    rw [List.reverse_cons, List.append_assoc, List.singleton_append, List.length_cons] at hnext
    rw [List.length_cons, List.range'_succ, List.findSome?_cons, hhere, hbefore, hnext,
      firstRepeatAfter?, Option.filter_some, List.contains_reverse]
    cases seen.contains x <;> rfl

theorem firstRepeatInPlace?_eq (xs : List α) : firstRepeatInPlace? xs = firstRepeat? xs := by
  cases xs with
  | nil => rfl
  | cons x rest => exact findSome?_inPlace [x] rest

end QuantumCircuit.Distinct
