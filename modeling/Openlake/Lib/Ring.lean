import Mathlib

/-!
# Windows of a ring

Tickets count up from zero and ticket `t` stands for slot `t % cap`. Tickets of
a window no longer than the ring stand for different slots.
-/

set_option autoImplicit false

namespace Lib.Ring

theorem slot_ne {cap base s t : ℕ} (hs : base ≤ s) (ht : base ≤ t) (hst : s ≠ t)
    (hs' : s < base+cap) (ht' : t < base+cap) : s%cap ≠ t%cap := by
  intro h
  wlog hlt : s < t generalizing s t
  · exact this ht hs hst.symm ht' hs' h.symm (by omega)
  · have hdvd : cap ∣ t-s := (Nat.modEq_iff_dvd' hlt.le).mp h
    have := Nat.le_of_dvd (by omega) hdvd
    omega

/-- A further ticket goes to a slot that no ticket of the window stands for. -/
theorem slot_notMem {cap base len t : ℕ} {tickets : List ℕ}
    (hmem : ∀ s ∈ tickets, s ≠ t ∧ base ≤ s ∧ s < base+len) (ht : base ≤ t) (ht' : t < base+len)
    (hlen : len ≤ cap) : t%cap ∉ tickets.map (fun s => s%cap) := by
  intro h
  obtain ⟨s,hs,heq⟩ := List.mem_map.mp h
  obtain ⟨hne,hlow,hhigh⟩ := hmem s hs
  exact slot_ne hlow ht hne (by omega) (by omega) heq

end Lib.Ring
