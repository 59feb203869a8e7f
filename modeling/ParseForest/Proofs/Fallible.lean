/-!
# `ParseForest.Proofs.Fallible`: runs that may fail

The passes and checks run in `Except`. This module says when a sequence of two
steps ends and when it fails, and gives the two rules for loops. Both name an
invariant of what was done so far and of the value carried along:

* `foldlM_cases`: over a list, the invariant speaks of the elements that were
  gone through;
* `foldlM_range_cases`: over the slots of an array, it speaks of their number.

What is known of a step is that it keeps the invariant or fails in some way, and
so much is then known of the loop. `forM_range_cases` is the case of a loop that
only asks a question of every slot.

`EndsIn` puts the two ways to end into one, for invariants that only speak of
the value carried along: they pass from step to step, and the failures are of
one kind throughout.
-/

set_option autoImplicit false

namespace ParseForest

variable {ε α β : Type}

/-- A step that succeeds hands its result to the next one. Rewriting with this
and with `fetch_eq_ok` runs a pass one step further. -/
@[simp] theorem except_ok_bind (a : α) (f : α → Except ε β) :
    ((Except.ok a : Except ε α) >>= f) = f a := rfl

/-- A step that fails is the last one, and its failure is that of the whole. -/
@[simp] theorem except_error_bind (e : ε) (f : α → Except ε β) :
    ((Except.error e : Except ε α) >>= f) = .error e := rfl

/-- A sequence of two steps that has a result has one of the first step, too.
With it a run that is known to have come to an end is taken apart. -/
theorem exists_of_bind_eq_ok {run : Except ε α} {f : α → Except ε β} {b : β}
    (h : run >>= f = .ok b) : ∃ a, run = .ok a ∧ f a = .ok b := by
  cases run with
  | ok a => exact ⟨a, rfl, h⟩
  | error e => cases h

/-- A loop over the numbers below `n + 1` is the one over those below `n`, and
then one step. Inductions on the number of slots that are behind go from one to
the other. -/
theorem foldlM_range_succ (f : β → Nat → Except ε β) (init : β) (n : Nat) :
    (List.range (n + 1)).foldlM f init = (List.range n).foldlM f init >>= fun b => f b n := by
  rw [List.range_succ, List.foldlM_append]
  cases (List.range n).foldlM f init with
  | error e => rfl
  | ok b =>
    rw [except_ok_bind, except_ok_bind, List.foldlM_cons]
    cases f b n <;> rfl

/-- A loop over a list in which every step keeps an invariant of the elements
gone through, or fails in some way, ends with the invariant for all elements, or
fails in such a way. -/
theorem foldlM_cases (f : β → α → Except ε β) (init : β) (l : List α)
    (I : List α → β → Prop) (F : ε → Prop) (hinit : I [] init)
    (hstep : ∀ done a rest b, l = done ++ a :: rest → I done b →
      (∃ b', f b a = .ok b' ∧ I (done ++ [a]) b') ∨ ∃ e, f b a = .error e ∧ F e) :
    (∃ b, l.foldlM f init = .ok b ∧ I l b) ∨ ∃ e, l.foldlM f init = .error e ∧ F e := by
  -- The loop from the middle on: the invariant holds of what is behind.
  suffices hmiddle : ∀ rest done b, l = done ++ rest → I done b →
      (∃ b', rest.foldlM f b = .ok b' ∧ I l b') ∨ ∃ e, rest.foldlM f b = .error e ∧ F e from
    hmiddle l [] init rfl hinit
  intro rest
  induction rest with
  | nil =>
    intro done b hl hI
    rw [List.append_nil] at hl
    exact Or.inl ⟨b, rfl, hl ▸ hI⟩
  | cons a rest ih =>
    intro done b hl hI
    rw [List.foldlM_cons]
    rcases hstep done a rest b hl hI with ⟨b', hf, hI'⟩ | ⟨e, hf, hF⟩
    · have hl' : l = (done ++ [a]) ++ rest := by rw [hl, List.append_assoc]; rfl
      rw [hf, except_ok_bind]
      exact ih (done ++ [a]) b' hl' hI'
    · rw [hf, except_error_bind]
      exact Or.inr ⟨e, rfl, hF⟩

/-- The same for a loop over the numbers below `n`, with an invariant of how
many of them are behind. The step is told that its number is below `n`, for
look-ups in an array of that size. -/
theorem foldlM_range_cases (f : β → Nat → Except ε β) (init : β) (n : Nat)
    (I : Nat → β → Prop) (F : ε → Prop) (hinit : I 0 init)
    (hstep : ∀ k b, k < n → I k b →
      (∃ b', f b k = .ok b' ∧ I (k + 1) b') ∨ ∃ e, f b k = .error e ∧ F e) :
    (∃ b, (List.range n).foldlM f init = .ok b ∧ I n b) ∨
      ∃ e, (List.range n).foldlM f init = .error e ∧ F e := by
  induction n with
  | zero => exact Or.inl ⟨init, rfl, hinit⟩
  | succ n ih =>
    rw [foldlM_range_succ]
    rcases ih fun k b hk => hstep k b (Nat.lt_succ_of_lt hk) with ⟨b, hb, hI⟩ | ⟨e, he, hF⟩
    · rw [hb, except_ok_bind]
      exact hstep n b (Nat.lt_succ_self n) hI
    · rw [he, except_error_bind]
      exact Or.inr ⟨e, rfl, hF⟩

/-- A question asked of the numbers below `n` in order is answered well for all
of them, or the answer is that to the lowest number for which it is not. So a
check reports what it finds first. -/
theorem forM_range_cases (f : Nat → Except ε Unit) (n : Nat) :
    ((List.range n).forM f = .ok () ∧ ∀ k < n, f k = .ok ()) ∨
      ∃ k e, k < n ∧ (∀ j < k, f j = .ok ()) ∧ f k = .error e ∧
        (List.range n).forM f = .error e := by
  have hfold : (List.range n).forM f = (List.range n).foldlM (fun _ k => f k) () := by
    induction List.range n with
    | nil => rfl
    | cons a l ih => exact congrArg (f a >>= ·) (funext fun _ => ih)
  rw [hfold]
  have hstep : ∀ k (_ : Unit), k < n → (∀ j < k, f j = .ok ()) →
      (∃ b', f k = .ok b' ∧ ∀ j < k + 1, f j = .ok ()) ∨
        ∃ e, f k = .error e ∧ ∃ k < n, (∀ j < k, f j = .ok ()) ∧ f k = .error e := by
    intro k _ hk hbefore
    cases hf : f k with
    | error e => exact Or.inr ⟨e, rfl, k, hk, hbefore, hf⟩
    | ok _ => exact Or.inl ⟨(), rfl, Nat.forall_lt_succ_right.2 ⟨hbefore, hf⟩⟩
  rcases foldlM_range_cases (fun _ k => f k) () n (fun count _ => ∀ k < count, f k = .ok ()) _
    (fun k hk => absurd hk (Nat.not_lt_zero k)) hstep with
    ⟨_, hb, hI⟩ | ⟨e, he, k, hk, hbefore, hf⟩
  · exact Or.inl ⟨hb, hI⟩
  · exact Or.inr ⟨k, e, hk, hbefore, hf, he⟩

/-- The run ends with a result of one kind, or fails in a way of another. -/
def EndsIn (I : α → Prop) (F : ε → Prop) (run : Except ε α) : Prop :=
  (∃ a, run = .ok a ∧ I a) ∨ ∃ e, run = .error e ∧ F e

namespace EndsIn

variable {I : α → Prop} {J : β → Prop} {F : ε → Prop} {run : Except ε α} {a : α} {e : ε}

/-- A run that has a result of one kind ends in it, whatever is said of
failures. -/
theorem ok (h : I a) : EndsIn I F (.ok a) := Or.inl ⟨a, rfl, h⟩

/-- A run that has failed in a way of one kind ends in it, whatever is said of
results. -/
theorem error (h : F e) : EndsIn I F (.error e) := Or.inr ⟨e, rfl, h⟩

/-- If a run has a result, the result is of the kind that was promised. -/
theorem of_ok (h : EndsIn I F (.ok a)) : I a := by
  obtain ⟨_, heq, hI⟩ | ⟨_, heq, _⟩ := h <;> cases heq
  exact hI

/-- If a run has failed, it has failed in the way that was promised. -/
theorem of_error (h : EndsIn I F (.error e)) : F e := by
  obtain ⟨_, heq, _⟩ | ⟨_, heq, hF⟩ := h <;> cases heq
  exact hF

/-- What a first step leaves is all that the second one may count on. A failure
of either is a failure of the two together. -/
theorem bind {f : α → Except ε β} (h : EndsIn I F run) (hf : ∀ a, I a → EndsIn J F (f a)) :
    EndsIn J F (run >>= f) := by
  obtain ⟨a, rfl, hI⟩ | ⟨e, rfl, hF⟩ := h
  · rw [except_ok_bind]
    exact hf a hI
  · rw [except_error_bind]
    exact error hF

/-- A loop keeps what every step of it keeps. The elements gone through are not
spoken of; where the invariant has to name them, there is `foldlM_cases`. -/
theorem foldlM {f : β → α → Except ε β} {init : β} {l : List α} (hinit : J init)
    (hstep : ∀ a ∈ l, ∀ b, J b → EndsIn J F (f b a)) : EndsIn J F (l.foldlM f init) :=
  foldlM_cases f init l (fun _ => J) F hinit fun _ a _ b hl =>
    hstep a (hl ▸ List.mem_append_right _ List.mem_cons_self) b

end EndsIn

end ParseForest
