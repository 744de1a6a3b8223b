import Mathlib
import Cykusz.Mm.Virt.TableSpec

/-!
# Frames, their users and the free frames

Every frame the tables reach (a table of the tree, or a page an entry maps) is used: `R f`
counts its users. `ref_phys_page` and `unref_phys_page` keep the page's `vm_use_count` at least
that count, so a frame goes back to the allocator only when nothing uses it; the allocator hands
out only such frames. `Frames m R` says this of a memory for a count `R`, and the lemmas below
say how each operation on counts and on free frames moves it: `allocate` takes a frame nothing
uses, `refPhysPage` adds a user, `unrefPhysPage` drops one, and writes to tables change nothing.
-/

namespace Cykusz.Virt

namespace Mem

variable {A : Type} [FrameAlloc A]

open Entry

/-- The allocator's free frames and the use counts against a count `R` of each frame's users. -/
structure Frames (m : Mem A) (R : ℕ → ℕ) : Prop where
  free_fit : ∀ f ∈ m.free, Fits f
  free_unused : ∀ f ∈ m.free, R f = 0
  used_fit : ∀ f, R f ≠ 0 → Fits f
  uses : ∀ f, f ≠ 0 → m.hasPhysPage f = true → R f ≤ m.uses (f / pageSize)

variable {m m' : Mem A} {R : ℕ → ℕ} {f a b : ℕ}

theorem frameOf_of_fits (h : Fits f) : frameOf f = f := by
  unfold frameOf
  rw [Nat.div_mul_cancel (Nat.dvd_of_mod_eq_zero h.1)]

/-- Two used frames in one page are one frame. -/
theorem Frames.eq_of_div_eq (hf : Frames m R) (ha : R a ≠ 0) (hb : R b ≠ 0)
    (h : a / pageSize = b / pageSize) : a = b := by
  have hma := (hf.used_fit a ha).1
  have hmb := (hf.used_fit b hb).1
  rw [← Nat.div_add_mod a pageSize, ← Nat.div_add_mod b pageSize, h, hma, hmb]

/-- Writes to tables leave the free frames and the counts. -/
theorem Frames.of_eq (hf : Frames m R) (hfree : m'.free = m.free) (huses : m'.uses = m.uses)
    (hpages : m'.pages = m.pages) : Frames m' R where
  free_fit := hfree ▸ hf.free_fit
  free_unused := hfree ▸ hf.free_unused
  used_fit := hf.used_fit
  uses := by
    intro f hf0 hp
    rw [huses]
    exact hf.uses f hf0 (by simpa [hasPhysPage, hpages] using hp)

/-- Fewer users keep every bound. -/
theorem Frames.of_le (hf : Frames m R) {R' : ℕ → ℕ} (h : ∀ g, R' g ≤ R g) : Frames m R' where
  free_fit := hf.free_fit
  free_unused g hg := Nat.eq_zero_of_le_zero (hf.free_unused g hg ▸ h g)
  used_fit g hg := hf.used_fit g fun h0 => hg (Nat.eq_zero_of_le_zero (h0 ▸ h g))
  uses g hg0 hp := (h g).trans (hf.uses g hg0 hp)

/-- The allocator hands out a frame nothing uses, and frees no other. -/
theorem Frames.allocate (hf : Frames m R) (h : m.allocate = some (f, m')) :
    Frames m' R ∧ R f = 0 ∧ Fits f ∧ f ∉ m'.free := by
  obtain ⟨-, -, huses, hpages⟩ := allocate_eq_some h
  have hold : ∀ g ∈ m'.free, g ∈ m.free := fun g hg => mem_free_of_mem_allocate h hg
  have hf₀ : f ∈ m.free := mem_free_of_allocate h
  refine ⟨⟨fun g hg => hf.free_fit g (hold g hg), fun g hg => hf.free_unused g (hold g hg),
    hf.used_fit, ?_⟩, hf.free_unused f hf₀, hf.free_fit f hf₀, not_mem_free_allocate h⟩
  intro g hg0 hp
  rw [huses]
  exact hf.uses g hg0 (by simpa [hasPhysPage, hpages] using hp)

omit [FrameAlloc A] in
theorem uses_le_refPhysPage (x : ℕ) : m.uses x ≤ (m.refPhysPage b).uses x := by
  rw [refPhysPage_uses]
  split_ifs
  · by_cases hx : x = b / pageSize
    · subst hx
      simp
    · rw [Function.update_of_ne hx]
  · exact le_rfl

/-- `ref_phys_page` of a frame that is not free adds a user. -/
theorem Frames.refPhysPage (hf : Frames m R) (hb : b ∉ m.free) (hfit : Fits b) :
    Frames (m.refPhysPage b) (Function.update R b (R b + 1)) := by
  have hR : ∀ g, g ≠ b → Function.update R b (R b + 1) g = R g := fun g hg =>
    Function.update_of_ne hg _ _
  refine ⟨by simpa using hf.free_fit, ?_, ?_, ?_⟩
  · intro g hg
    rw [free_refPhysPage] at hg
    have hgb : g ≠ b := fun h => hb (h ▸ hg)
    rw [hR g hgb]
    exact hf.free_unused g hg
  · intro g hg
    by_cases hgb : g = b
    · exact hgb ▸ hfit
    · exact hf.used_fit g (by rwa [hR g hgb] at hg)
  · intro g hg0 hp
    replace hp : m.hasPhysPage g = true := by simpa [hasPhysPage] using hp
    by_cases hgb : g = b
    · subst hgb
      rw [refPhysPage_uses, if_pos ⟨hg0, hp⟩]
      simpa using hf.uses g hg0 hp
    · rw [hR g hgb]
      exact (hf.uses g hg0 hp).trans (uses_le_refPhysPage _)

/-- `unref_phys_page` of a used frame drops a user, and frees the frame with its last user. -/
theorem Frames.unrefPhysPage (hf : Frames m R) (ha : R a ≠ 0) :
    Frames (m.unrefPhysPage a).2 (Function.update R a (R a - 1)) := by
  have hR : ∀ g, g ≠ a → Function.update R a (R a - 1) g = R g := fun g hg =>
    Function.update_of_ne hg _ _
  by_cases htr : a ≠ 0 ∧ m.hasPhysPage a = true
  · have hfit := hf.used_fit a ha
    have hnot : a ∉ m.free := fun h => ha (hf.free_unused a h)
    have hle := hf.uses a htr.1 htr.2
    have hfree := free_unrefPhysPage htr
    rw [frameOf_of_fits hfit] at hfree
    -- the free frames either stay or gain at most `a`, whose users are then all gone
    have hmem : ∀ g ∈ (m.unrefPhysPage a).2.free, g ∈ m.free ∨
        (g = a ∧ m.uses (a / pageSize) - 1 = 0) := by
      intro g hg
      rw [hfree] at hg
      split_ifs at hg with h0
      · rcases FrameAlloc.mem_deallocate hg with rfl | hg
        · exact .inr ⟨rfl, h0⟩
        · exact .inl hg
      · exact .inl hg
    refine ⟨?_, ?_, ?_, ?_⟩
    · intro g hg
      rcases hmem g hg with hg | ⟨rfl, -⟩
      · exact hf.free_fit g hg
      · exact hfit
    · intro g hg
      rcases hmem g hg with hg | ⟨rfl, h0⟩
      · rw [hR g fun h => hnot (h ▸ hg)]
        exact hf.free_unused g hg
      · simp only [Function.update_self]
        omega
    · intro g hg
      by_cases hga : g = a
      · exact hga ▸ hfit
      · exact hf.used_fit g (by rwa [hR g hga] at hg)
    · intro g hg0 hp
      replace hp : m.hasPhysPage g = true := by simpa [hasPhysPage] using hp
      rw [uses_unrefPhysPage htr]
      by_cases hga : g = a
      · subst hga
        simp only [Function.update_self]
        omega
      · rw [hR g hga]
        by_cases hdiv : g / pageSize = a / pageSize
        · -- the only used frame of that page is `a`
          have hg : R g = 0 := by
            by_contra hg
            exact hga (hf.eq_of_div_eq hg ha hdiv)
          omega
        · rw [Function.update_of_ne hdiv]
          exact hf.uses g hg0 hp
  · -- a frame without a counted page: nothing moves
    rw [unrefPhysPage_of_not htr]
    apply hf.of_le
    intro g
    by_cases hga : g = a
    · subst hga
      simp
    · rw [hR g hga]

/-- The accounting of `set_frame`: a user moves from the entry's old frame `o`, when the entry
was present, to the new frame `b`, and `S` counts the users after. -/
theorem Frames.setFrame {t : ℕ} {i : Fin 512} {o : Option ℕ} {S : ℕ → ℕ}
    (hf : Frames m R) (hfit : Fits b) (hb : b ∉ m.free)
    (hold : ∀ a, o = some a → (m.entry t i).address = a ∧ R a ≠ 0)
    (hnone : o = none → (m.entry t i).address = 0)
    (hR : ∀ g, S g + (if o = some g then 1 else 0) = R g + (if b = g then 1 else 0)) :
    Frames (if (m.entry t i).address ≠ b then
      (m.unrefPhysPage (m.entry t i).address).2.refPhysPage b else m) S := by
  cases o with
  | none =>
    have h0 := hnone rfl
    have hS : S = Function.update R b (R b + 1) := by
      funext g
      have := hR g
      simp only [Function.update_apply, reduceCtorEq, if_false] at this ⊢
      split_ifs at this ⊢ <;> subst_vars <;> omega
    have hunref : (m.unrefPhysPage 0).2 = m := unrefPhysPage_of_not (by simp)
    rw [hS, h0]
    split_ifs with hb0
    · rw [hunref]
      exact hf.refPhysPage hb hfit
    · -- the new frame is frame 0, which has no counted page
      have href : m.refPhysPage b = m := by
        rw [← not_not.1 hb0]
        exact if_neg (by simp)
      rw [← href]
      exact hf.refPhysPage hb hfit
  | some a =>
    obtain ⟨ha, hRa⟩ := hold a rfl
    rw [ha]
    split_ifs with hab
    · have hS : S = Function.update (Function.update R a (R a - 1)) b
          (Function.update R a (R a - 1) b + 1) := by
        funext g
        have := hR g
        simp only [Function.update_apply, Option.some.injEq] at this ⊢
        split_ifs at this ⊢ <;> subst_vars <;> omega
      rw [hS]
      apply (hf.unrefPhysPage hRa).refPhysPage _ hfit
      -- a freed frame is the o one, never the new one
      intro hmem
      by_cases htr : a ≠ 0 ∧ m.hasPhysPage a = true
      · rw [free_unrefPhysPage htr, frameOf_of_fits (hf.used_fit a hRa)] at hmem
        split_ifs at hmem
        · rcases FrameAlloc.mem_deallocate hmem with h | h
          · exact hab h.symm
          · exact hb h
        · exact hb hmem
      · rw [unrefPhysPage_of_not htr] at hmem
        exact hb hmem
    · have hS : S = R := by
        funext g
        have := hR g
        rw [not_not.1 hab] at this
        simp only [Option.some.injEq] at this
        split_ifs at this <;> omega
      rw [hS]
      exact hf

end Mem

end Cykusz.Virt
