import Mathlib.Tactic

/-!
# Runs of a machine over a list of inputs

A machine is a function `step : σ → α → σ × List ε`: it consumes an input, changes its state and
logs some events. `exec` runs it over a list of inputs and collects the log. `Guarded step ok s as`
says that each input of the run meets `ok` in the state it is consumed in. `exec_inv` is the rule
all runs are reasoned with: what one guarded step preserves, of the state and the log so far, a
guarded run preserves.
-/

namespace Libcat.Run

variable {σ α ε : Type*} (step : σ → α → σ × List ε) (ok : σ → α → Prop)

/-- The final state and the log of a run. -/
def exec : σ → List α → σ × List ε
  | s, [] => (s, [])
  | s, a :: as =>
    let r := step s a
    let q := exec r.1 as
    (q.1, r.2 ++ q.2)

/-- Every input of the run meets `ok` in the state it is consumed in. -/
def Guarded : σ → List α → Prop
  | _, [] => True
  | s, a :: as => ok s a ∧ Guarded (step s a).1 as

instance Guarded.decidable [∀ s a, Decidable (ok s a)] : ∀ s as, Decidable (Guarded step ok s as)
  | _, [] => inferInstanceAs (Decidable True)
  | s, a :: as =>
    have := Guarded.decidable (step s a).1 as
    inferInstanceAs (Decidable (_ ∧ _))

@[simp] theorem exec_nil (s : σ) : exec step s [] = (s, []) := rfl

@[simp] theorem exec_cons_fst (s : σ) (a : α) (as : List α) :
    (exec step s (a :: as)).1 = (exec step (step s a).1 as).1 := rfl

@[simp] theorem exec_cons_snd (s : σ) (a : α) (as : List α) :
    (exec step s (a :: as)).2 = (step s a).2 ++ (exec step (step s a).1 as).2 := rfl

theorem exec_append (s : σ) (as bs : List α) :
    exec step s (as ++ bs) =
      ((exec step (exec step s as).1 bs).1,
        (exec step s as).2 ++ (exec step (exec step s as).1 bs).2) := by
  induction as generalizing s with
  | nil => rfl
  | cons a as ih => simp [exec, ih, List.append_assoc]

variable {step ok}

/-- What a guarded step preserves, a guarded run preserves; the inputs consumed so far may take part
in the invariant. -/
theorem exec_inv_inputs (Inv : List α → σ → List ε → Prop)
    (hstep : ∀ done s l a, Inv done s l → ok s a → Inv (done ++ [a]) (step s a).1 (l ++ (step s a).2)) :
    ∀ as done s l, Inv done s l → Guarded step ok s as →
      Inv (done ++ as) (exec step s as).1 (l ++ (exec step s as).2) := by
  intro as
  induction as with
  | nil => intro done s l h _; simpa using h
  | cons a as ih =>
    intro done s l h hg
    have := ih _ _ _ (hstep done s l a h hg.1) hg.2
    simpa [List.append_assoc] using this

theorem exec_inv (Inv : σ → List ε → Prop)
    (hstep : ∀ s l a, Inv s l → ok s a → Inv (step s a).1 (l ++ (step s a).2)) (as : List α) (s : σ)
    (l : List ε) (h : Inv s l) (hg : Guarded step ok s as) :
    Inv (exec step s as).1 (l ++ (exec step s as).2) :=
  exec_inv_inputs (fun _ => Inv) (fun _ s l a => hstep s l a) as [] s l h hg

/-- The unguarded case. -/
theorem exec_inv' {Inv : σ → List ε → Prop}
    (hstep : ∀ s l a, Inv s l → Inv (step s a).1 (l ++ (step s a).2)) (as : List α) (s : σ)
    (l : List ε) (h : Inv s l) : Inv (exec step s as).1 (l ++ (exec step s as).2) := by
  induction as generalizing s l with
  | nil => simpa using h
  | cons a as ih => simpa [List.append_assoc] using ih _ _ (hstep s l a h)

/-- In a run whose inputs are admissible, a property holds in every state that is reached exactly if
every input meets `ok`: those preserve an invariant that has the property, and the first one that
does not meet `ok` breaks the property. -/
theorem holds_iff_guarded {adm : σ → α → Prop} {Inv P : σ → Prop} (hP : ∀ s, Inv s → P s)
    (hgood : ∀ s a, Inv s → adm s a → ok s a → Inv (step s a).1)
    (hbad : ∀ s a, Inv s → adm s a → P (step s a).1 → ok s a) (as : List α) :
    ∀ s, Inv s → Guarded step adm s as →
      ((∀ n, P (exec step s (as.take n)).1) ↔ Guarded step ok s as) := by
  induction as with
  | nil =>
    intro s h _
    simp only [List.take_nil, exec_nil]
    exact ⟨fun _ => trivial, fun _ _ => hP s h⟩
  | cons a as ih =>
    rintro s h ⟨ha, hadm⟩
    constructor
    · intro hall
      have hok := hbad s a h ha (by simpa using hall 1)
      refine ⟨hok, (ih _ (hgood s a h ha hok) hadm).mp fun n => ?_⟩
      have := hall (n + 1)
      rwa [List.take_succ_cons, exec_cons_fst] at this
    · rintro ⟨hok, hg⟩ n
      cases n with
      | zero => simpa using hP s h
      | succ n =>
        rw [List.take_succ_cons, exec_cons_fst]
        exact (ih _ (hgood s a h ha hok) hadm).mpr hg n

/-- Inputs that meet `ok` in every state. -/
theorem guarded_of_mem {as : List α} (h : ∀ a ∈ as, ∀ s, ok s a) : ∀ s, Guarded step ok s as := by
  induction as with
  | nil => exact fun _ => trivial
  | cons a as ih =>
    exact fun s => ⟨h a List.mem_cons_self s, ih (fun b hb => h b (List.mem_cons_of_mem a hb)) _⟩

theorem guarded_true (as : List α) : ∀ s, Guarded step (fun _ _ => True) s as :=
  guarded_of_mem fun _ _ _ => trivial

theorem Guarded.take : ∀ {as : List α} {s : σ}, Guarded step ok s as →
    ∀ n, Guarded step ok s (as.take n)
  | [], _, _, _ => by simp [Guarded]
  | _ :: _, _, _, 0 => trivial
  | _ :: _, _, h, n + 1 => ⟨h.1, Guarded.take h.2 n⟩

/-- Guards that hold together. -/
theorem Guarded.and {ok' : σ → α → Prop} :
    ∀ {as : List α} {s : σ}, Guarded step ok s as → Guarded step ok' s as →
      Guarded step (fun s a => ok s a ∧ ok' s a) s as
  | [], _, _, _ => trivial
  | _ :: _, _, h, h' => ⟨⟨h.1, h'.1⟩, Guarded.and h.2 h'.2⟩

end Libcat.Run
