import WasmBinary.CommandLine
import WasmBinary.Proofs.Text.Token

/-! The lines of a log. A line tells of its event what kind it is and the numbers that the log is
about, and nothing else. -/
namespace WasmBinary

namespace Text

private theorem exists_digit_of_mem_toDigits {n : Nat} {c : Char} (h : c ∈ Nat.toDigits 16 n) :
    ∃ d < 16, c = Nat.digitChar d := by
  induction n using Nat.strongRecOn with
  | ind n ih =>
    rw [Nat.toDigits_eq_if (by decide)] at h
    split at h
    · next hlt => exact ⟨n, hlt, List.mem_singleton.1 h⟩
    · next hge =>
      rcases List.mem_append.1 h with h | h
      · exact ih (n / 16) (by omega) h
      · exact ⟨n % 16, Nat.mod_lt n (by decide), List.mem_singleton.1 h⟩

private theorem digitChar_inj :
    ∀ d < 16, ∀ d' < 16, Nat.digitChar d = Nat.digitChar d' → d = d' := by
  decide

private theorem toDigits_sixteen_inj {m n : Nat} (h : Nat.toDigits 16 m = Nat.toDigits 16 n) :
    m = n := by
  induction m using Nat.strongRecOn generalizing n with
  | ind m ih =>
    rw [Nat.toDigits_eq_if (by decide), Nat.toDigits_eq_if (n := n) (by decide)] at h
    split at h
    · next hm =>
      split at h
      · next hn => exact digitChar_inj m hm n hn (List.singleton_inj.1 h)
      · -- A number from sixteen on has two digits at least.
        have hlength := congrArg List.length h
        simp [Nat.toDigits_ne_nil] at hlength
    · next hm =>
      split at h
      · have hlength := congrArg List.length h
        simp [Nat.toDigits_ne_nil] at hlength
      · obtain ⟨hhigh, hlow⟩ := List.append_inj' h rfl
        have hquotient := ih (m / 16) (by omega) hhigh
        have hdigit := digitChar_inj _ (Nat.mod_lt m (by decide)) _ (Nat.mod_lt n (by decide))
          (List.singleton_inj.1 hlow)
        omega

theorem isToken_offset : IsToken Char.isAlphanum offset where
  mem n c hc := by
    have halphanum : ∀ d < 16, (Nat.digitChar d).isAlphanum = true := by decide
    simp only [offset, hexDigits, String.toList_append, String.toList_ofList,
      List.mem_append] at hc
    rcases hc with hc | hc
    · rcases (by simpa using hc : c = '0' ∨ c = 'x') with rfl | rfl <;> rfl
    · obtain ⟨d, hd, rfl⟩ := exists_digit_of_mem_toDigits hc
      exact halphanum d hd
  inj m n h := toDigits_sixteen_inj (String.ofList_inj.1 ((String.append_right_inj "0x").1 h))

theorem isToken_sectionName : IsToken Char.isAlpha SectionId.name where
  mem id := by cases id <;> simp [SectionId.name]
  inj a b := by cases a <;> cases b <;> simp [SectionId.name]

end Text

open Text

/-- What the line of an event tells about it. -/
inductive Account where
  | framed (id : SectionId) (size : UInt32) (offset : Nat)
  | body (index : Nat) (size : UInt32) (offset slots instructions : Nat)
  | segment (memory : MemIdx) (bytes : Nat)
  | finished (version : UInt32) (sections bytes : Nat)
  deriving DecidableEq, Repr

namespace Event

variable {e e' : Event}

def account : Event → Account
  | .framed h => .framed h.id h.size h.offset
  | .body index offset b =>
    .body index b.size offset (LocalGroup.slots b.locals) b.instructions.length
  | .segment s => .segment s.memory s.init.length
  | .finished version sections bytes => .finished version sections bytes

private theorem toString_string (s : String) : toString s = s := rfl

private theorem framed_account_eq {h h' : SectionHeader}
    (heq : (framed h).message = (framed h').message) :
    (framed h).account = (framed h').account := by
  have hlist := congrArg String.toList heq
  unfold message at hlist
  simp only [toString_string, String.toList_append, List.append_assoc] at hlist
  obtain ⟨hid, hrest⟩ := isToken_sectionName.append_inj (by simp) (by simp) hlist
  obtain ⟨hsize, hrest⟩ := isToken_decimal.append_inj_after (by simp) (by simp) hrest
  have hoffset := isToken_offset.inj _ _ (String.toList_inj.1 (List.append_cancel_left hrest))
  rw [account, account, hid, UInt32.toNat_inj.1 hsize, hoffset]

private theorem body_account_eq {index index' offset offset' : Nat} {b b' : Body}
    (heq : (body index offset b).message = (body index' offset' b').message) :
    (body index offset b).account = (body index' offset' b').account := by
  have hlist := congrArg String.toList heq
  unfold message at hlist
  simp only [toString_string, String.toList_append, List.append_assoc] at hlist
  obtain ⟨hindex, hrest⟩ := isToken_decimal.append_inj_after (by simp) (by simp) hlist
  obtain ⟨hsize, hrest⟩ := isToken_decimal.append_inj_after (by simp) (by simp) hrest
  obtain ⟨hoffset, hrest⟩ := isToken_offset.append_inj_after (by simp) (by simp) hrest
  obtain ⟨hslots, hrest⟩ := isToken_decimal.append_inj_after (by simp) (by simp) hrest
  obtain ⟨hcount, -⟩ := isToken_decimal.append_inj_after (by simp) (by simp) hrest
  rw [account, account, hindex, UInt32.toNat_inj.1 hsize, hoffset, hslots, hcount]

private theorem segment_account_eq {s s' : DataSegment}
    (heq : (segment s).message = (segment s').message) :
    (segment s).account = (segment s').account := by
  have hlist := congrArg String.toList heq
  unfold message at hlist
  simp only [toString_string, String.toList_append, List.append_assoc] at hlist
  obtain ⟨hmemory, hrest⟩ := isToken_index.append_inj_after (by simp) (by simp) hlist
  obtain ⟨hbytes, -⟩ := isToken_decimal.append_inj_after (by simp) (by simp) hrest
  rw [account, account, hmemory, hbytes]

private theorem finished_account_eq {version version' : UInt32}
    {sections sections' bytes bytes' : Nat}
    (heq : (finished version sections bytes).message =
      (finished version' sections' bytes').message) :
    (finished version sections bytes).account = (finished version' sections' bytes').account := by
  have hlist := congrArg String.toList heq
  unfold message at hlist
  simp only [toString_string, String.toList_append, List.append_assoc] at hlist
  obtain ⟨hversion, hrest⟩ := isToken_decimal.append_inj_after (by simp) (by simp) hlist
  obtain ⟨hsections, hrest⟩ := isToken_decimal.append_inj_after (by simp) (by simp) hrest
  obtain ⟨hbytes, -⟩ := isToken_decimal.append_inj_after (by simp) (by simp) hrest
  rw [UInt32.toNat_inj.1 hversion, hsections, hbytes]

/-- A section name is one word, and the word after it tells a section from a summary. -/
private theorem framed_message_ne_finished (h : SectionHeader) (version : UInt32)
    (sections bytes : Nat) : (framed h).message ≠ (finished version sections bytes).message := by
  intro heq
  have hword : "decoded module: version ".toList =
      "decoded".toList ++ " module: version ".toList := by
    simp
  have hlist := congrArg String.toList heq
  unfold message at hlist
  simp only [toString_string, String.toList_append, List.append_assoc] at hlist
  rw [hword, List.append_assoc] at hlist
  obtain ⟨-, hrest⟩ := append_inj_of_stops (isToken_sectionName.mem h.id) (by simp) (by simp)
    (by simp) hlist
  simp at hrest

private theorem length_levelName (l : Level) : l.name.length = 5 := by
  cases l <;> rfl

private theorem toList_line (e : Event) :
    e.line.toList = (e.level.name ++ " [" ++ e.topic).toList ++
      ("] ".toList ++ (e.message.toList ++ "\n".toList)) := by
  have hname : padRight 5 e.level.name = e.level.name := by
    simp [padRight, length_levelName]
  simp only [line, hname, String.toList_append, List.append_assoc]

/-- The topic ends where the first bracket closes, and the message follows. -/
private theorem eq_of_line_eq (h : e.line = e'.line) :
    e.topic = e'.topic ∧ e.message = e'.message := by
  have hopen (e : Event) : ∀ c ∈ (e.level.name ++ " [" ++ e.topic).toList, (c != ']') = true := by
    have hnone : ']' ∉ (e.level.name ++ " [" ++ e.topic).toList := by
      cases e <;> simp [level, topic, Level.name]
    intro c hc
    exact bne_iff_ne.2 fun heq => hnone (heq ▸ hc)
  have hlist := congrArg String.toList h
  rw [toList_line, toList_line] at hlist
  obtain ⟨hbefore, hrest⟩ := append_inj_of_stops (hopen e) (hopen e') (by simp) (by simp) hlist
  have hmessage := List.append_cancel_right (List.append_cancel_left hrest)
  have hlength : (e.level.name ++ " [").toList.length = (e'.level.name ++ " [").toList.length := by
    simp only [String.length_toList, String.length_append, length_levelName]
  rw [String.toList_append, String.toList_append (t := e'.topic)] at hbefore
  exact ⟨String.toList_inj.1 (List.append_inj_right hbefore hlength), String.toList_inj.1 hmessage⟩

theorem account_eq_of_line_eq (h : e.line = e'.line) : e.account = e'.account := by
  obtain ⟨htopic, hmessage⟩ := eq_of_line_eq h
  -- The topics leave only a section and a summary to be told apart by their messages.
  cases e with
  | framed x =>
    cases e' with
    | framed y => exact framed_account_eq hmessage
    | finished version sections bytes =>
      exact absurd hmessage (framed_message_ne_finished x version sections bytes)
    | _ => simp [topic] at htopic
  | body index offset b =>
    cases e' with
    | body index' offset' b' => exact body_account_eq hmessage
    | _ => simp [topic] at htopic
  | segment s =>
    cases e' with
    | segment s' => exact segment_account_eq hmessage
    | _ => simp [topic] at htopic
  | finished version sections bytes =>
    cases e' with
    | framed y => exact absurd hmessage.symm (framed_message_ne_finished y version sections bytes)
    | finished version' sections' bytes' => exact finished_account_eq hmessage
    | _ => simp [topic] at htopic

/-- A log can be read: equal lines tell the same, and the level says whether they tell a section or
the end of a run, or an item of a section. -/
structure Legible : Prop where
  account_eq : ∀ ⦃e e' : Event⦄, e.line = e'.line → e.account = e'.account
  debug_iff : ∀ e : Event, e.level = .debug ↔
    (∃ header, e = .framed header) ∨ ∃ version sections bytes, e = .finished version sections bytes

theorem legible : Legible where
  account_eq _ _ := account_eq_of_line_eq
  debug_iff e := by cases e <;> simp [level]

end Event
end WasmBinary
