import Mathlib.Data.List.Perm.Subperm
import Mathlib.Data.List.Nodup

/-! # Tokens with exclusive holders

Every holder has a list of tokens that have been issued, and no token is held
twice, neither by two holders nor twice by one. Tokens may pass from one holder to
another, may get lost on the way, and new ones may be issued. -/
namespace Speedy.Lib

/-- Only issued tokens are held, and no token twice. -/
structure Exclusive {η α : Type} (issued : α → Prop) (held : η → List α) : Prop where
  known : ∀ h, ∀ x ∈ held h, issued x
  nodup : ∀ h, (held h).Nodup
  unique : ∀ h h' x, x ∈ held h → x ∈ held h' → h = h'

theorem nodup_of_subperm {α : Type} {l l' : List α} (hp : l'.Subperm l) (hl : l.Nodup) :
    l'.Nodup := by
  obtain ⟨k, hk, hs⟩ := hp
  exact hk.nodup_iff.mp (hs.nodup hl)

section Exclusive
variable {η α : Type} {issued issued' : α → Prop} {held held' : η → List α}

/-- Tokens may get lost. -/
theorem Exclusive.lose (hx : Exclusive issued held) (hl : ∀ h, (held' h).Subperm (held h)) :
    Exclusive issued held' where
  known h x hm := hx.known h x ((hl h).subset hm)
  nodup h := nodup_of_subperm (hl h) (hx.nodup h)
  unique h h' x hm hm' := hx.unique h h' x ((hl h).subset hm) ((hl h').subset hm')

/-- New tokens may be issued, some of them to one holder. -/
theorem Exclusive.issue {a : η} {new : List α} (hx : Exclusive issued held) (hn : new.Nodup)
    (hfresh : ∀ x ∈ new, ¬ issued x) (hissued : ∀ x, issued x ∨ x ∈ new → issued' x)
    (ha : (held' a).Subperm (held a ++ new)) (hother : ∀ h, h ≠ a → held' h = held h) :
    Exclusive issued' held' := by
  have hall : (held a ++ new).Nodup := List.nodup_append'.mpr
    ⟨hx.nodup a, hn, fun x hm hm' => hfresh x hm' (hx.known a x hm)⟩
  -- a token of another holder is an old one of its own
  have hfar : ∀ h x, h ≠ a → x ∈ held' h → x ∉ held' a := by
    intro h x hne hm hma
    rw [hother h hne] at hm
    rcases List.mem_append.mp (ha.subset hma) with hma | hma
    · exact hne (hx.unique h a x hm hma)
    · exact hfresh x hma (hx.known h x hm)
  refine ⟨fun h x hm => hissued x ?_, fun h => ?_, fun h h' x hm hm' => ?_⟩
  · by_cases he : h = a
    · subst he
      exact (List.mem_append.mp (ha.subset hm)).imp_left (hx.known h x)
    · exact .inl (hx.known h x (hother h he ▸ hm))
  · by_cases he : h = a
    · exact he ▸ nodup_of_subperm ha hall
    · exact hother h he ▸ hx.nodup h
  · by_cases he : h = a
    · by_cases he' : h' = a
      · rw [he, he']
      · exact absurd (he ▸ hm) (hfar h' x he' hm')
    · by_cases he' : h' = a
      · exact absurd (he' ▸ hm') (hfar h x he hm)
      · exact hx.unique h h' x (hother h he ▸ hm) (hother h' he' ▸ hm')

/-- Two holders may share their tokens out anew, and lose some. -/
theorem Exclusive.exchange {a b : η} (hab : a ≠ b) (hx : Exclusive issued held)
    (hp : (held' a ++ held' b).Subperm (held a ++ held b))
    (hother : ∀ h, h ≠ a → h ≠ b → held' h = held h) : Exclusive issued held' := by
  have hboth : (held a ++ held b).Nodup := List.nodup_append'.mpr
    ⟨hx.nodup a, hx.nodup b, fun x hm hm' => hab (hx.unique a b x hm hm')⟩
  obtain ⟨hna, hnb, hd⟩ := List.nodup_append'.mp (nodup_of_subperm hp hboth)
  have hpair : ∀ h x, h = a ∨ h = b → x ∈ held' h → x ∈ held a ∨ x ∈ held b := by
    rintro h x (rfl | rfl) hm
    · exact List.mem_append.mp (hp.subset (List.mem_append_left _ hm))
    · exact List.mem_append.mp (hp.subset (List.mem_append_right _ hm))
  -- a token of one of the two is with no third holder
  have hfar : ∀ h h' x, h = a ∨ h = b → x ∈ held' h → h' ≠ a → h' ≠ b → x ∉ held' h' := by
    intro h h' x ho hm ha hb hm'
    rw [hother h' ha hb] at hm'
    rcases hpair h x ho hm with hm | hm
    · exact ha (hx.unique h' a x hm' hm)
    · exact hb (hx.unique h' b x hm' hm)
  refine ⟨fun h x hm => ?_, fun h => ?_, fun h h' x hm hm' => ?_⟩
  · by_cases ho : h = a ∨ h = b
    · exact (hpair h x ho hm).elim (hx.known a x) (hx.known b x)
    · obtain ⟨ha, hb⟩ := not_or.mp ho
      exact hx.known h x (hother h ha hb ▸ hm)
  · by_cases ha : h = a
    · exact ha ▸ hna
    by_cases hb : h = b
    · exact hb ▸ hnb
    exact hother h ha hb ▸ hx.nodup h
  · by_cases ho : h = a ∨ h = b <;> by_cases ho' : h' = a ∨ h' = b
    · rcases ho with rfl | rfl <;> rcases ho' with rfl | rfl
      · rfl
      · exact (hd hm hm').elim
      · exact (hd hm' hm).elim
      · rfl
    · obtain ⟨ha, hb⟩ := not_or.mp ho'
      exact absurd hm' (hfar h h' x ho hm ha hb)
    · obtain ⟨ha, hb⟩ := not_or.mp ho
      exact absurd hm (hfar h' h x ho' hm' ha hb)
    · obtain ⟨ha, hb⟩ := not_or.mp ho
      obtain ⟨ha', hb'⟩ := not_or.mp ho'
      exact hx.unique h h' x (hother h ha hb ▸ hm) (hother h' ha' hb' ▸ hm')

end Exclusive

end Speedy.Lib
