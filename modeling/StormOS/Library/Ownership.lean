import Mathlib.Logic.Basic

namespace StormOS.Library.Ownership

variable {ι φ : Type}

/-- Every frame has at most one owner. -/
def Exclusive (owns : ι → φ → Prop) : Prop := ∀ a b f, owns a f → owns b f → a = b

variable {owns owns' : ι → φ → Prop} {a : ι} {f : φ}

theorem Exclusive.mono (h : Exclusive owns) (hsub : ∀ b g, owns' b g → owns b g) :
    Exclusive owns' :=
  fun b c g hb hc ↦ h b c g (hsub b g hb) (hsub c g hc)

theorem Exclusive.install (h : Exclusive owns) (hfresh : ∀ b, ¬ owns b f)
    (hsub : ∀ b g, owns' b g → owns b g ∨ b = a ∧ g = f) : Exclusive owns' := by
  intro b c g hb hc
  rcases hsub b g hb with hb | ⟨rfl, rfl⟩
  · rcases hsub c g hc with hc | ⟨rfl, rfl⟩
    · exact h b c g hb hc
    · exact absurd hb (hfresh b)
  · rcases hsub c g hc with hc | ⟨rfl, _⟩
    · exact absurd hc (hfresh c)
    · rfl

end StormOS.Library.Ownership
