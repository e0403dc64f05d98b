import Mathlib.Data.Set.Insert

/-! # Exclusive ownership of resources

A store of references (`ρ`), each of which may hold a resource (`φ`). `Owns holds alloc` says that
a held resource is allocated and that no two references hold the same one. The lemmas are the moves
an allocator-backed structure makes: a reference takes a fresh resource, references are dropped, a
resource nobody holds is given back. -/

namespace Embedded

variable {ρ φ : Type}

/-- Held resources are allocated, and held once. -/
structure Owns (holds : ρ → φ → Prop) (alloc : φ → Prop) : Prop where
  alloc : ∀ r f, holds r f → alloc f
  uniq : ∀ r r' f, holds r f → holds r' f → r = r'

/-- Allocated, and held by nobody. -/
def Loose (holds : ρ → φ → Prop) (alloc : φ → Prop) (f : φ) : Prop :=
  alloc f ∧ ∀ r, ¬ holds r f

namespace Owns

variable {holds holds' : ρ → φ → Prop} {alloc alloc' : φ → Prop}

/-- Dropping references, and changing the allocation of resources nobody holds any more. -/
theorem mono (h : Owns holds alloc) (hsub : ∀ r f, holds' r f → holds r f)
    (hal : ∀ r f, holds' r f → alloc' f) : Owns holds' alloc' :=
  ⟨hal, fun r r' f hr hr' => h.uniq r r' f (hsub r f hr) (hsub r' f hr')⟩

/-- New references take resources nobody held; the others keep at most what they had. -/
theorem extend (h : Owns holds alloc) (new : ρ → φ → Prop) (hloose : ∀ r f, new r f → Loose holds alloc f)
    (hinj : ∀ r r' f, new r f → new r' f → r = r')
    (hsub : ∀ r f, holds' r f → new r f ∨ holds r f)
    (hal : ∀ f, alloc f → alloc' f) : Owns holds' alloc' := by
  refine ⟨fun r f hr => ?_, fun r r' f hr hr' => ?_⟩
  · rcases hsub r f hr with hr | hr
    · exact hal _ (hloose r f hr).1
    exact hal _ (h.alloc r f hr)
  rcases hsub r f hr with hr1 | hr1 <;> rcases hsub r' f hr' with hr2 | hr2
  · exact hinj r r' f hr1 hr2
  · exact absurd hr2 ((hloose r f hr1).2 r')
  · exact absurd hr1 ((hloose r' f hr2).2 r)
  exact h.uniq r r' f hr1 hr2

/-- One reference takes one resource nobody held. -/
theorem take (h : Owns holds alloc) (r0 : ρ) {f0 : φ} (hloose : Loose holds alloc f0)
    (hsub : ∀ r f, holds' r f → (r = r0 ∧ f = f0) ∨ holds r f)
    (hal : ∀ f, alloc f → alloc' f) : Owns holds' alloc' := by
  refine h.extend (fun r f => r = r0 ∧ f = f0) ?_ ?_ hsub hal
  · rintro r f ⟨_, rfl⟩
    exact hloose
  rintro r r' f ⟨rfl, _⟩ ⟨rfl, _⟩
  rfl

end Owns

theorem Owns.loose_of_drop {holds holds' : ρ → φ → Prop} {alloc : φ → Prop}
    (h : Owns holds alloc) {r0 : ρ} {f0 : φ} (h0 : holds r0 f0)
    (hsub : ∀ r f, holds' r f → r ≠ r0 ∧ holds r f) : Loose holds' alloc f0 :=
  ⟨h.alloc r0 f0 h0, fun r hr => (hsub r f0 hr).1 (h.uniq r r0 f0 (hsub r f0 hr).2 h0)⟩

end Embedded
