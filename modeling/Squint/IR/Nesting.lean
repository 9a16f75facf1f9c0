import Squint.IR.Control

/-! Activations are well nested: until the activation of `F` that lies on the frames `K` returns
or is left by an exception, those frames stay untouched. -/
namespace Squint.IR

variable {W : Type} {E : Env W} {M : Module}

/-- An activation of `F` and whatever it has called lie on the frames `K`. -/
def Above (K : List Frame) (F : Function) (stack : List Frame) : Prop :=
  ∃ us g, stack = us ++ g :: K ∧ g.fn = F

namespace Above

variable {K fs stack : List Frame} {F : Function} {f f' : Frame}

theorem push (h : Above K F stack) (f : Frame) : Above K F (f :: stack) := by
  obtain ⟨us, g, rfl, hg⟩ := h
  exact ⟨f :: us, g, rfl, hg⟩

/-- The topmost frame is the activation itself, or lies above it. -/
theorem cons_cases (h : Above K F (f :: fs)) : (f.fn = F ∧ fs = K) ∨ Above K F fs := by
  obtain ⟨us, g, he, hg⟩ := h
  cases us with
  | nil =>
    simp only [List.nil_append, List.cons.injEq] at he
    obtain ⟨rfl, rfl⟩ := he
    exact .inl ⟨hg, rfl⟩
  | cons u us =>
    simp only [List.cons_append, List.cons.injEq] at he
    obtain ⟨rfl, rfl⟩ := he
    exact .inr ⟨us, g, rfl, hg⟩

theorem replace_top (h : Above K F (f :: fs)) (hf : f'.fn = f.fn) : Above K F (f' :: fs) := by
  rcases h.cons_cases with ⟨hF, rfl⟩ | h
  · exact ⟨[], f', rfl, hf.trans hF⟩
  · exact h.push f'

/-- Frames taken off the top leave the activation in place, unless it is among them. -/
theorem drop {us : List Frame} (h : Above K F (us ++ stack)) :
    Above K F stack ∨ (stack.length ≤ K.length ∧ ∃ g ∈ us, g.fn = F) := by
  induction us with
  | nil => exact .inl h
  | cons u us ih =>
    rcases h.cons_cases with ⟨hu, rfl⟩ | h
    · exact .inr ⟨by simp, u, by simp, hu⟩
    · rcases ih h with h | ⟨hle, g, hg, hgF⟩
      · exact .inl h
      · exact .inr ⟨hle, g, by simp [hg], hgF⟩

end Above

theorem tracing_le_cons (f : Frame) (fs : List Frame) : tracing fs ≤ tracing (f :: fs) := by
  cases fs with
  | nil => exact le_rfl
  | cons g gs => exact Nat.le_add_left _ _

theorem tracing_wrapper {f g : Frame} (hg : isWrapper g.fn.name = true)
    (hf : isWrapper f.fn.name = false) (fs : List Frame) :
    tracing (g :: f :: fs) = tracing (f :: fs) + 1 := by
  rw [tracing, hg, hf, Nat.add_comm]
  rfl

/-- While a wrapper called from another function runs, every entry says so. -/
theorem tracing_above {f : Frame} {fs stack : List Frame} {F : Function}
    (hf : isWrapper f.fn.name = false) (hF : isWrapper F.name = true)
    (h : Above (f :: fs) F stack) : 0 < tracing stack := by
  obtain ⟨us, g, rfl, rfl⟩ := h
  induction us with
  | nil => simp [tracing_wrapper hF hf]
  | cons u us ih => exact ih.trans_le (tracing_le_cons u _)

def LoggedAbove (K : List Frame) (F : Function) (L : List Entry) : Prop :=
  ∀ e ∈ L, ∃ X ev, Above K F X ∧ e = logAt X ev

namespace LoggedAbove

variable {K stack : List Frame} {F : Function} {L L' : List Entry}

theorem singleton (hK : Above K F stack) (ev : Event) : LoggedAbove K F [logAt stack ev] :=
  fun _ he => ⟨stack, ev, hK, List.mem_singleton.mp he⟩

theorem append (h : LoggedAbove K F L) (h' : LoggedAbove K F L') : LoggedAbove K F (L ++ L') :=
  fun e he => (List.mem_append.mp he).elim (h e) (h' e)

end LoggedAbove

/-- The activation goes on, or an exception has left it. -/
def StaysAbove (K : List Frame) (F : Function) (stack : List Frame) (L : List Entry) : Prop :=
  (Above K F stack ∧ LoggedAbove K F L) ∨ (stack.length ≤ K.length ∧ F.nounwind = false)

section
variable {K stack stack' : List Frame} {F : Function} {L L₀ : List Entry}

theorem StaysAbove.logged (h : StaysAbove K F stack L) (h₀ : LoggedAbove K F L₀) :
    StaysAbove K F stack (L₀ ++ L) :=
  h.imp_left fun h => ⟨h.1, h₀.append h.2⟩

theorem resumeWith_above {v : Option ℕ} (hK : Above K F stack)
    (h : resumeWith E M v stack = some (stack', L)) : Above K F stack' ∧ LoggedAbove K F L := by
  cases stack with
  | nil => obtain ⟨us, g, he, -⟩ := hK; simp at he
  | cons f fs =>
    rcases resumeWith_cases h with ⟨dst, -, rfl, rfl⟩ | ⟨ρ, l, f', -, hf', rfl, rfl⟩
    · exact ⟨hK.replace_top rfl, by simp [LoggedAbove]⟩
    · have hfn := Frame.goto_fn hf'
      exact ⟨hK.replace_top hfn, .singleton (hK.replace_top hfn) _⟩

theorem unwind_above (hK : Above K F stack) (h : unwind E M stack = some (stack', L)) :
    StaysAbove K F stack' L := by
  obtain ⟨us, f, fs, l, f', rfl, hus, -, hf', rfl, rfl⟩ := unwind_cases h
  rcases hK.drop with hK | ⟨hle, g, hg, rfl⟩
  · have hK' := hK.replace_top (Frame.goto_fn hf')
    exact .inl ⟨hK', .singleton hK' _⟩
  · exact .inr ⟨by simpa using hle, hus g hg⟩

theorem Move.above {f : Frame} {fs : List Frame} {i : Inst} (hK : Above K F (f :: fs))
    (h : Move E M f fs i stack L) : StaysAbove K F stack L ∨
      (stack.length ≤ K.length ∧ fs = K ∧ ∃ v, i = .term (.ret v)) := by
  have hwaits : ∀ wait, Above K F ({ f with wait := wait } :: fs) := fun _ => hK.replace_top rfl
  have hlogs : ∀ {P : Event → Prop} {L₀}, (∀ e ∈ L₀, ∃ ev, e = logAt (f :: fs) ev ∧ P ev) →
      LoggedAbove K F L₀ := fun h e he => by
    obtain ⟨ev, rfl, -⟩ := h e he
    exact ⟨_, ev, hK, rfl⟩
  cases h with
  | @work f' hstack hfn hrest hwait hlog =>
    subst hstack
    refine .inl (.inl ⟨hK.replace_top hfn, fun e he => ?_⟩)
    obtain ⟨k, a, n, d, rfl, -⟩ := hlog e he
    exact ⟨_, _, hK, rfl⟩
  | @jump l f' hl hgoto hstack hlog =>
    subst hstack hlog
    have hK' := hK.replace_top (Frame.goto_fn hgoto)
    exact .inl (.inl ⟨hK', .singleton hK' _⟩)
  | enter hc hn hG hwait hstack hlog =>
    have hK' : Above K F stack := hstack ▸ (hwaits _).push _
    exact .inl (.inl ⟨hK', hlog ▸ .append (.singleton hK _) (.singleton hK' _)⟩)
  | back hc hwait hres hL hlog =>
    subst hL
    have hK' := resumeWith_above (hwaits _) hres
    exact .inl (.inl ⟨hK'.1, (hlogs hlog).append hK'.2⟩)
  | caught hc hwait hres hL hlog =>
    subst hL
    exact .inl ((unwind_above (hwaits _) hres).logged (hlogs hlog))
  | @ret v r L₁ hi hres hlog =>
    subst hlog
    rcases hK.cons_cases with ⟨-, rfl⟩ | hfs
    · refine .inr ⟨?_, rfl, v, hi⟩
      cases fs with
      | nil => simp [resumeWith] at hres; simp [hres]
      | cons g gs =>
        rcases resumeWith_cases hres with ⟨_, -, -, rfl⟩ | ⟨_, _, _, -, -, rfl, -⟩ <;> simp
    · obtain ⟨hK', hL'⟩ := resumeWith_above hfs hres
      exact .inl (.inl ⟨hK', (LoggedAbove.singleton hK _).append hL'⟩)
  | raise hn hres =>
    rcases hK.cons_cases with ⟨rfl, rfl⟩ | hfs
    · obtain ⟨us, g, gs, l, g', rfl, -, -, -, rfl, -⟩ := unwind_cases hres
      exact .inl (.inr ⟨by simp, hn⟩)
    · exact .inl (unwind_above hfs hres)

/-- A step from above `K` stays above `K`, unless the activation returns to `K` or an exception
leaves it. -/
theorem step_above {s t : State W} (hK : Above K F s.stack) (h : step E M s = some (t, L)) :
    StaysAbove K F t.stack L ∨ (t.stack.length ≤ K.length ∧
      ∃ g v rest, s.stack = g :: K ∧ g.rest = .term (.ret v) :: rest) := by
  obtain ⟨f, fs, i, rest, hs, hr, hmove⟩ := step_move h
  rw [hs] at hK
  have hK' : Above K F ({ f with rest := rest } :: fs) := hK.replace_top rfl
  rcases hmove.above hK' with h | ⟨hle, rfl, v, rfl⟩
  · exact .inl h
  · exact .inr ⟨hle, f, v, rest, hs, hr⟩

end

end Squint.IR
