import WasmBinary.Stream.Basic

/-! What a stream delivers does not depend on its bursts and interruptions. -/
namespace WasmBinary.Stream

private theorem reach_pos {n : Nat} (hn : 0 < n) {s : Stream} (hi : s.interrupted? = none)
    (hs : s.stopped? = none) : 0 < s.reach n := by
  have h₁ : 0 < s.interruptions.head?.elim n (· - s.position) := by
    unfold interrupted? at hi
    split at hi
    · next h => simpa [h] using hn
    · next i is h =>
      split at hi
      · simp at hi
      · simp [h]
        omega
  have h₂ : 0 < (s.fault.map (·.1)).elim n (· - s.position) := by
    unfold stopped? at hs
    split at hs
    · next h => simpa [h] using hn
    · next f why h =>
      split at hs
      · simp at hs
      · simp [h]
        omega
  simp only [reach]
  omega

private theorem reach_le (n : Nat) (s : Stream) : s.reach n ≤ n := by
  simp only [reach]
  omega

private theorem reach_le_of_fault {n f : Nat} {why : Stop} {s : Stream}
    (hf : s.fault = some (f, why)) : s.reach n ≤ f - s.position := by
  simp only [reach, hf, Option.map_some, Option.elim_some]
  omega

/-- The bytes that the stream has still to deliver, and how it stops after them. A fault past the end
of the bytes is never met. -/
def supply (s : Stream) : List UInt8 × Stop :=
  match s.fault with
  | none => (s.ahead, .endOfInput)
  | some (f, why) =>
    if f ≤ s.position + s.ahead.length then (s.ahead.take (f - s.position), why)
    else (s.ahead, .endOfInput)

theorem supply_of_fault_eq_none {s : Stream} (hf : s.fault = none) :
    s.supply = (s.ahead, .endOfInput) := by
  rw [supply, hf]

private theorem supply_of_fault_eq_some {s : Stream} {f : Nat} {why : Stop}
    (hf : s.fault = some (f, why)) : s.supply =
      if f ≤ s.position + s.ahead.length then (s.ahead.take (f - s.position), why)
      else (s.ahead, .endOfInput) := by
  rw [supply, hf]

/-- What one call of `read` for `n` bytes may answer, and what it does to the stream. -/
inductive Delivers (n : Nat) (s : Stream) : Delivery → Stream → Prop
  | interrupted {t : Stream} (supply : t.supply = s.supply) (position : t.position = s.position) :
    Delivers n s .interrupted t
  | bytes {bs : List UInt8} {t : Stream} (ne_nil : bs ≠ []) (length : bs.length ≤ n)
    (supply : s.supply = (bs ++ t.supply.1, t.supply.2))
    (position : t.position = s.position + bs.length) : Delivers n s (.bytes bs) t
  | stopped {why : Stop} (supply : s.supply = ([], why)) : Delivers n s (.stopped why) s

private theorem supply_of_stopped {s : Stream} {why : Stop} (h : s.stopped? = some why) :
    s.supply = ([], why) := by
  rw [stopped?] at h
  cases hf : s.fault with
  | none => simp [hf] at h
  | some fault =>
    obtain ⟨f, why'⟩ := fault
    rw [hf] at h
    dsimp only at h
    split at h
    · next hle =>
      have hzero : f - s.position = 0 := by omega
      rw [supply_of_fault_eq_some hf, if_pos (by omega), hzero, Option.some.inj h, List.take_zero]
    · simp at h

private theorem supply_of_ahead_eq_nil {s : Stream} (hs : s.stopped? = none) (h : s.ahead = []) :
    s.supply = ([], .endOfInput) := by
  rw [stopped?] at hs
  cases hf : s.fault with
  | none => rw [supply_of_fault_eq_none hf, h]
  | some fault =>
    obtain ⟨f, why⟩ := fault
    rw [hf] at hs
    dsimp only at hs
    split at hs
    · simp at hs
    · next hlt =>
      rw [supply_of_fault_eq_some hf, h]
      exact if_neg hlt

/-- What follows some bytes that are delivered, if they do not reach across a fault. -/
theorem supply_eq_append {s t : Stream} {r : Nat}
    (hr : ∀ f why, s.fault = some (f, why) → r ≤ f - s.position)
    (hfault : t.fault = s.fault) (hahead : t.ahead = s.ahead.drop r)
    (hposition : t.position = s.position + (s.ahead.take r).length) :
    s.supply = (s.ahead.take r ++ t.supply.1, t.supply.2) := by
  cases hf : s.fault with
  | none =>
    rw [supply_of_fault_eq_none hf, supply_of_fault_eq_none (hfault.trans hf), hahead,
      List.take_append_drop]
  | some fault =>
    obtain ⟨f, why⟩ := fault
    have hle := hr f why hf
    have hend : t.position + (s.ahead.drop r).length = s.position + s.ahead.length := by
      rw [hposition, List.length_take, List.length_drop]
      omega
    rw [supply_of_fault_eq_some hf, supply_of_fault_eq_some (hfault.trans hf), hahead, hend]
    split
    · have hsplit : f - s.position = r + (f - t.position) := by
        rw [hposition, List.length_take]
        omega
      rw [hsplit, List.take_add]
    · rw [List.take_append_drop]

theorem read_delivers {n : Nat} (hn : 0 < n) (s : Stream) :
    Delivers n s (s.read n).1 (s.read n).2 := by
  unfold read
  split
  · exact .interrupted rfl rfl
  · next hi =>
    split
    · next why hs => exact .stopped (supply_of_stopped hs)
    · next hs =>
      have hpos := reach_pos hn hi hs
      split
      · next rest hb =>
        have hnil : s.ahead = [] := by
          rw [List.splitAt_eq] at hb
          have hlen := congrArg List.length (Prod.mk.inj hb).1
          rw [List.length_take, List.length_nil] at hlen
          exact List.eq_nil_of_length_eq_zero (by omega)
        exact .stopped (supply_of_ahead_eq_nil hs hnil)
      · next bs rest hne hb =>
        rw [List.splitAt_eq] at hb
        obtain ⟨rfl, rfl⟩ := Prod.mk.inj hb
        refine .bytes (fun h => hne h) ?_ ?_ rfl
        · exact Nat.le_trans (List.length_take_le _ _) (reach_le n s)
        · exact supply_eq_append (fun f why => reach_le_of_fault) rfl rfl rfl

theorem delivers_of_read_eq {n : Nat} (hn : 0 < n) {s t : Stream} {d : Delivery}
    (h : s.read n = (d, t)) : Delivers n s d t := by
  have hread := read_delivers hn s
  rw [h] at hread
  exact hread

/-- However much each call asks for, repeated calls bring the supply. -/
theorem drain_eq_supply {n : Nat} (hn : 0 < n) (s : Stream) : s.drain n = s.supply := by
  fun_induction drain n s with
  | case1 s why t h =>
    cases delivers_of_read_eq hn h with
    | stopped supply => exact supply.symm
  | case2 s t h _ ih =>
    cases delivers_of_read_eq hn h with
    | interrupted supply _ => exact ih.trans supply
  | case3 s bs t h _ rest ih =>
    cases delivers_of_read_eq hn h with
    | bytes _ _ supply _ =>
      have hrest : rest = t.supply := ih
      rw [supply, hrest]

theorem contents_eq_supply (s : Stream) : s.contents = s.supply :=
  drain_eq_supply (Nat.succ_pos _) s

theorem contents_of_fault_eq_none (s : Stream) (hf : s.fault = none) :
    s.contents = (s.ahead, .endOfInput) := by
  rw [contents_eq_supply, supply_of_fault_eq_none hf]

end WasmBinary.Stream
