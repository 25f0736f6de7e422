import Mathlib.Data.List.Nodup
import Std.Data.HashSet.Lemmas

/-!
# Loops

What every round of a loop over a list keeps holds in the end, if no round fails (`exists_foldlM`).

A loop over a queue takes the oldest entry and puts new ones behind the others, until none is left. It
need not end: `drain` counts its rounds, and has no answer if they run out. `Round` is such a loop between
two rounds. Where something about the entries that were taken and those that wait is kept by every round
(`kept_after`) and bounds their number, the loop ends, and ends with that (`exists_drain`). `mark` is
the usual body of such a loop: each index goes into the queue once.
-/

namespace Lineage

/-! ## Over a list -/

/-- What every round of a loop over a list keeps, if none fails, holds in the end. -/
theorem exists_foldlM {σ α : Type} {f : σ → α → Option σ} {l : List α} {start : σ}
    (kept : List α → σ → Prop)
    (hstep : ∀ done s, ∀ a ∈ l, kept done s → ∃ s', f s a = some s' ∧ kept (done ++ [a]) s')
    (h : kept [] start) : ∃ last, l.foldlM f start = some last ∧ kept l last := by
  -- the induction is on the rounds to come, so those that are done are kept apart
  suffices hgo : ∀ (rest done : List α) (s : σ), (∀ a ∈ rest, a ∈ l) → kept done s →
      ∃ last, rest.foldlM f s = some last ∧ kept (done ++ rest) last from
    hgo l [] start (fun _ ha => ha) h
  intro rest
  induction rest with
  | nil =>
    intro done s _ hs
    exact ⟨s, rfl, by rwa [List.append_nil]⟩
  | cons a rest ih =>
    intro done s hrest hs
    obtain ⟨ha, hrest⟩ := List.forall_mem_cons.1 hrest
    obtain ⟨s', hs', hkept⟩ := hstep done s a ha hs
    obtain ⟨last, hlast, hend⟩ := ih _ s' hrest hkept
    refine ⟨last, by rw [List.foldlM_cons, hs']; exact hlast, ?_⟩
    rwa [List.append_assoc, List.singleton_append] at hend

/-! ## Over a queue -/

/-- Takes entries from the queue until none is left, if that takes no more than `fuel` rounds. A visit
changes the state, and says what else goes into the queue. -/
def drain {σ α : Type} (visit : σ → α → σ × List α) : Nat → σ → List α → Option σ
  | _, s, [] => some s
  | 0, _, _ :: _ => none
  | fuel + 1, s, a :: queue =>
    let (s, more) := visit s a
    drain visit fuel s (queue ++ more)

/-- A loop over a queue at the start of a round. -/
structure Round (σ α : Type) where
  /-- The entries that were taken, in that order. -/
  done : List α
  state : σ
  queue : List α

/-- Takes the oldest entry, if one is left. -/
def Round.next {σ α : Type} (visit : σ → α → σ × List α) (r : Round σ α) : Round σ α :=
  match r.queue with
  | [] => r
  | a :: queue => ⟨r.done ++ [a], (visit r.state a).1, queue ++ (visit r.state a).2⟩

/-- The loop after so many further rounds. -/
def Round.after {σ α : Type} (visit : σ → α → σ × List α) : Round σ α → Nat → Round σ α
  | r, 0 => r
  | r, rounds + 1 => (r.next visit).after visit rounds

section
variable {σ α : Type} {visit : σ → α → σ × List α} {s : σ} {done queue : List α} {size : Nat}
  {r : Round σ α}

theorem next_of_nil (h : r.queue = []) : r.next visit = r := by
  unfold Round.next
  rw [h]

theorem next_of_cons {a : α} (h : r.queue = a :: queue) :
    r.next visit = ⟨r.done ++ [a], (visit r.state a).1, queue ++ (visit r.state a).2⟩ := by
  unfold Round.next
  rw [h]

/-- What every visit keeps, of the entries that were taken, the state and the queue, holds at the start of
every round. -/
theorem kept_after (kept : List α → σ → List α → Prop) (rounds : Nat)
    (hvisit : ∀ done s a queue, kept done s (a :: queue) →
      kept (done ++ [a]) (visit s a).1 (queue ++ (visit s a).2))
    (h : kept r.done r.state r.queue) :
    kept (r.after visit rounds).done (r.after visit rounds).state (r.after visit rounds).queue := by
  induction rounds generalizing r with
  | zero => exact h
  | succ rounds ih =>
    refine ih ?_
    cases hq : r.queue with
    | nil => rwa [next_of_nil hq]
    | cons a queue =>
      rw [next_of_cons hq]
      exact hvisit _ _ _ _ (hq ▸ h)

theorem after_of_nil (rounds : Nat) (h : r.queue = []) : r.after visit rounds = r := by
  induction rounds with
  | zero => rfl
  | succ rounds ih => rw [Round.after, next_of_nil h, ih]

/-- A loop that has not ended took an entry in every round. -/
theorem length_done_after (rounds : Nat) :
    (r.after visit rounds).queue = [] ∨ (r.after visit rounds).done.length = r.done.length + rounds := by
  induction rounds generalizing r with
  | zero => exact .inr rfl
  | succ rounds ih =>
    cases hq : r.queue with
    | nil => exact .inl (by rw [after_of_nil _ hq, hq])
    | cons a queue =>
      refine ih.imp_right fun hlen => ?_
      rw [Round.after, hlen, next_of_cons hq, List.length_append, List.length_singleton]
      omega

theorem drain_eq_some (fuel : Nat) (h : (r.after visit fuel).queue = []) :
    drain visit fuel r.state r.queue = some (r.after visit fuel).state := by
  induction fuel generalizing r with
  | zero =>
    rw [Round.after] at h ⊢
    rw [h]
    rfl
  | succ fuel ih =>
    cases hq : r.queue with
    | nil => rw [after_of_nil _ hq]; rfl
    | cons a queue =>
      rw [Round.after, ← ih h, next_of_cons hq]
      rfl

/-- A loop has ended after as many rounds as there can be entries, by what every visit keeps. -/
theorem queue_after_eq_nil (kept : List α → σ → List α → Prop) (fuel : Nat)
    (hvisit : ∀ done s a queue, kept done s (a :: queue) →
      kept (done ++ [a]) (visit s a).1 (queue ++ (visit s a).2))
    (hsize : ∀ done s queue, kept done s queue → (done ++ queue).length ≤ size)
    (h : kept r.done r.state r.queue) (hfuel : size ≤ r.done.length + fuel) :
    (r.after visit fuel).queue = [] := by
  have hrun : (r.after visit fuel).queue = [] ∨
      (r.after visit fuel).done.length = r.done.length + fuel := length_done_after fuel
  rcases hrun with hrest | hlen
  · exact hrest
  · have hle := hsize _ _ _ (kept_after kept fuel hvisit h)
    rw [List.length_append, hlen] at hle
    exact List.length_eq_zero_iff.1 (by omega)

/-- What every visit keeps holds in the end if it bounds the number of entries. -/
theorem exists_drain (kept : List α → σ → List α → Prop) (fuel : Nat)
    (hvisit : ∀ done s a queue, kept done s (a :: queue) →
      kept (done ++ [a]) (visit s a).1 (queue ++ (visit s a).2))
    (hsize : ∀ done s queue, kept done s queue → (done ++ queue).length ≤ size)
    (h : kept done s queue) (hfuel : size ≤ done.length + fuel) :
    ∃ last done', drain visit fuel s queue = some last ∧ kept done' last [] := by
  obtain ⟨r, rfl, rfl, rfl⟩ : ∃ r : Round σ α, r.done = done ∧ r.state = s ∧ r.queue = queue :=
    ⟨⟨done, s, queue⟩, rfl, rfl, rfl⟩
  have hrest := queue_after_eq_nil kept fuel hvisit hsize h hfuel
  have hend := kept_after kept fuel hvisit h
  rw [hrest] at hend
  exact ⟨_, _, drain_eq_some fuel hrest, hend⟩

/-- Taking an entry moves it from the queue to those that were taken. -/
theorem taken_append {a : α} {more : List α} :
    (done ++ [a]) ++ (queue ++ more) = (done ++ a :: queue) ++ more := by
  simp only [List.append_assoc, List.cons_append, List.nil_append]

end

/-! ## Marks -/

/-- Marks indices; the answer lists those that were not marked yet, each once. -/
def mark (marked : Std.HashSet Nat) : List Nat → List Nat × Std.HashSet Nat
  | [] => ([], marked)
  | i :: rest =>
    if marked.contains i then mark marked rest
    else
      let (new, marked) := mark (marked.insert i) rest
      (i :: new, marked)

section
variable {marked : Std.HashSet Nat} {indices : List Nat} {i : Nat}

theorem mark_cons_of_mem {rest : List Nat} (h : i ∈ marked) : mark marked (i :: rest) = mark marked rest :=
  if_pos (Std.HashSet.contains_iff_mem.2 h)

theorem mark_cons_of_not_mem {rest : List Nat} (h : i ∉ marked) :
    mark marked (i :: rest) =
      (i :: (mark (marked.insert i) rest).1, (mark (marked.insert i) rest).2) :=
  if_neg fun hi => h (Std.HashSet.contains_iff_mem.1 hi)

theorem mem_hashSet_insert {j : Nat} : i ∈ marked.insert j ↔ i = j ∨ i ∈ marked := by
  rw [Std.HashSet.mem_insert, beq_iff_eq, eq_comm]

theorem mem_marked : i ∈ (mark marked indices).2 ↔ i ∈ marked ∨ i ∈ indices := by
  induction indices generalizing marked with
  | nil => simp [mark]
  | cons j rest ih =>
    by_cases hj : j ∈ marked
    · rw [mark_cons_of_mem hj, ih, List.mem_cons]
      constructor
      · exact Or.imp_right .inr
      · rintro (hi | rfl | hi)
        · exact .inl hi
        · exact .inl hj
        · exact .inr hi
    · rw [mark_cons_of_not_mem hj, ih, mem_hashSet_insert, List.mem_cons, or_comm (a := i = j), or_assoc]

theorem mem_mark : i ∈ (mark marked indices).1 ↔ i ∈ indices ∧ i ∉ marked := by
  induction indices generalizing marked with
  | nil => simp [mark]
  | cons j rest ih =>
    by_cases hj : j ∈ marked
    · rw [mark_cons_of_mem hj, ih, List.mem_cons]
      constructor
      · exact And.imp_left .inr
      · rintro ⟨rfl | hi, hnot⟩
        · exact absurd hj hnot
        · exact ⟨hi, hnot⟩
    · rw [mark_cons_of_not_mem hj, List.mem_cons, ih, mem_hashSet_insert, List.mem_cons]
      by_cases hij : i = j
      · simp [hij, hj]
      · simp [hij]

theorem nodup_mark : (mark marked indices).1.Nodup := by
  induction indices generalizing marked with
  | nil => exact .nil
  | cons j rest ih =>
    by_cases hj : j ∈ marked
    · rw [mark_cons_of_mem hj]
      exact ih
    · rw [mark_cons_of_not_mem hj]
      refine List.nodup_cons.2 ⟨fun hmem => ?_, ih⟩
      exact (mem_mark.1 hmem).2 (mem_hashSet_insert.2 (.inl rfl))

end

end Lineage
