import WasmBinary.Text.Utf8

/-! The scanner accepts exactly the UTF-8 encodings of texts. -/
namespace WasmBinary.Utf8

theorem ofLead?_one {b : UInt8} (h : b.toNat < 0x80) :
    Partial.ofLead? b = some ⟨1, 0, 0x80, 0xBF, b.toNat⟩ := by
  have hb : b < 0x80 := UInt8.lt_iff_toNat_lt.2 h
  rw [Partial.ofLead?, if_pos hb]

theorem ofLead?_two {b : UInt8} (h₁ : 0xC2 ≤ b.toNat) (h₂ : b.toNat < 0xE0) :
    Partial.ofLead? b = some ⟨1, 1, 0x80, 0xBF, b.toNat % 32⟩ := by
  simp only [Partial.ofLead?, UInt8.lt_iff_toNat_lt, UInt8.reduceToNat]
  rw [if_neg (by omega), if_neg (by omega), if_pos (by omega)]

/-- The second byte of three rules out overlong forms and surrogates. -/
theorem ofLead?_three {b : UInt8} (h₁ : 0xE0 ≤ b.toNat) (h₂ : b.toNat < 0xF0) :
    Partial.ofLead? b = some ⟨1, 2, if b = 0xE0 then 0xA0 else 0x80,
      if b = 0xED then 0x9F else 0xBF, b.toNat % 16⟩ := by
  simp only [Partial.ofLead?, UInt8.lt_iff_toNat_lt, UInt8.reduceToNat]
  rw [if_neg (by omega), if_neg (by omega), if_neg (by omega)]
  by_cases hE0 : b = 0xE0
  · subst hE0
    rfl
  · by_cases hED : b = 0xED
    · subst hED
      rfl
    · rw [if_neg hE0, if_neg hED, if_pos h₂, if_neg hE0, if_neg hED]

/-- The second byte of four rules out overlong forms and numbers above the last character. -/
theorem ofLead?_four {b : UInt8} (h₁ : 0xF0 ≤ b.toNat) (h₂ : b.toNat ≤ 0xF4) :
    Partial.ofLead? b = some ⟨1, 3, if b = 0xF0 then 0x90 else 0x80,
      if b = 0xF4 then 0x8F else 0xBF, b.toNat % 8⟩ := by
  have hE0 : b ≠ 0xE0 := by
    intro h
    subst h
    simp at h₁
  have hED : b ≠ 0xED := by
    intro h
    subst h
    simp at h₁
  simp only [Partial.ofLead?, UInt8.lt_iff_toNat_lt, UInt8.reduceToNat]
  rw [if_neg (by omega), if_neg (by omega), if_neg (by omega), if_neg hE0, if_neg hED,
    if_neg (by omega)]
  by_cases hF0 : b = 0xF0
  · subst hF0
    rfl
  · by_cases hF4 : b = 0xF4
    · subst hF4
      rfl
    · have hlt : b.toNat < 0xF4 := by
        have hne : b.toNat ≠ 0xF4 := fun h => hF4 (UInt8.toNat_inj.1 h)
        omega
      rw [if_neg hF0, if_pos hlt, if_neg hF0, if_neg hF4]

theorem ofLead?_cases {b : UInt8} {q : Partial} (h : Partial.ofLead? b = some q) :
    b.toNat < 0x80 ∨ (0xC2 ≤ b.toNat ∧ b.toNat < 0xE0) ∨ (0xE0 ≤ b.toNat ∧ b.toNat < 0xF0) ∨
      (0xF0 ≤ b.toNat ∧ b.toNat ≤ 0xF4) := by
  refine Decidable.byContradiction fun hb => ?_
  have hE0 : b ≠ 0xE0 := by
    intro h
    subst h
    simp at hb
  have hED : b ≠ 0xED := by
    intro h
    subst h
    simp at hb
  have hF0 : b ≠ 0xF0 := by
    intro h
    subst h
    simp at hb
  have hF4 : b ≠ 0xF4 := by
    intro h
    subst h
    simp at hb
  simp only [Partial.ofLead?, UInt8.lt_iff_toNat_lt, UInt8.reduceToNat, hE0, hED, hF0, hF4,
    if_false] at h
  by_cases hlt : b.toNat < 0xC2
  · rw [if_neg (by omega), if_pos hlt] at h
    simp at h
  · rw [if_neg (by omega), if_neg hlt, if_neg (by omega), if_neg (by omega), if_neg (by omega)] at h
    simp at h

/-- A byte that goes on with a character. -/
def IsTail (b : UInt8) : Prop :=
  0x80 ≤ b.toNat ∧ b.toNat ≤ 0xBF

/-- The bytes of one character, by their number. -/
inductive Sequence : List UInt8 → Prop
  | one {b : UInt8} (hb : b.toNat < 0x80) : Sequence [b]
  | two {b x : UInt8} (h₁ : 0xC2 ≤ b.toNat) (h₂ : b.toNat < 0xE0) (hx : IsTail x) :
    Sequence [b, x]
  | three {b x y : UInt8} (h₁ : 0xE0 ≤ b.toNat) (h₂ : b.toNat < 0xF0) (hx : IsTail x)
    (hlow : b.toNat = 0xE0 → 0xA0 ≤ x.toNat) (hhigh : b.toNat = 0xED → x.toNat ≤ 0x9F)
    (hy : IsTail y) : Sequence [b, x, y]
  | four {b x y z : UInt8} (h₁ : 0xF0 ≤ b.toNat) (h₂ : b.toNat ≤ 0xF4) (hx : IsTail x)
    (hlow : b.toNat = 0xF0 → 0x90 ≤ x.toNat) (hhigh : b.toNat = 0xF4 → x.toNat ≤ 0x8F)
    (hy : IsTail y) (hz : IsTail z) : Sequence [b, x, y, z]

private theorem toNat_ofNat {n : Nat} (h : n.isValidChar) : (Char.ofNat n).toNat = n := by
  unfold Char.ofNat
  rw [dif_pos h]
  rfl

private theorem ofNat_eq {n : Nat} {b : UInt8} (h : n = b.toNat) : UInt8.ofNat n = b := by
  rw [h, UInt8.ofNat_toNat]

private theorem encodeChar_one {b : UInt8} (hb : b.toNat < 0x80) :
    String.utf8EncodeChar (Char.ofNat b.toNat) = [b] := by
  have hv : (Char.ofNat b.toNat).val.toNat = b.toNat := toNat_ofNat (.inl (by omega))
  simp only [String.utf8EncodeChar, hv]
  rw [if_pos (by omega), ofNat_eq rfl]

private theorem encodeChar_two {b x : UInt8} (h₁ : 0xC2 ≤ b.toNat) (h₂ : b.toNat < 0xE0)
    (hx : IsTail x) :
    String.utf8EncodeChar (Char.ofNat (b.toNat % 32 * 64 + x.toNat % 64)) = [b, x] := by
  obtain ⟨hx₁, hx₂⟩ := hx
  have hv : (Char.ofNat (b.toNat % 32 * 64 + x.toNat % 64)).val.toNat =
    b.toNat % 32 * 64 + x.toNat % 64 := toNat_ofNat (.inl (by omega))
  simp only [String.utf8EncodeChar, hv]
  rw [if_neg (by omega), if_pos (by omega)]
  simp only [List.cons.injEq, and_true]
  exact ⟨ofNat_eq (by omega), ofNat_eq (by omega)⟩

private theorem encodeChar_three {b x y : UInt8} (h₁ : 0xE0 ≤ b.toNat) (h₂ : b.toNat < 0xF0)
    (hx : IsTail x) (hlow : b.toNat = 0xE0 → 0xA0 ≤ x.toNat)
    (hhigh : b.toNat = 0xED → x.toNat ≤ 0x9F) (hy : IsTail y) :
    String.utf8EncodeChar
      (Char.ofNat ((b.toNat % 16 * 64 + x.toNat % 64) * 64 + y.toNat % 64)) = [b, x, y] := by
  obtain ⟨hx₁, hx₂⟩ := hx
  obtain ⟨hy₁, hy₂⟩ := hy
  have hvalid : ((b.toNat % 16 * 64 + x.toNat % 64) * 64 + y.toNat % 64).isValidChar := by
    unfold Nat.isValidChar
    omega
  have hv : (Char.ofNat ((b.toNat % 16 * 64 + x.toNat % 64) * 64 + y.toNat % 64)).val.toNat =
    (b.toNat % 16 * 64 + x.toNat % 64) * 64 + y.toNat % 64 := toNat_ofNat hvalid
  simp only [String.utf8EncodeChar, hv]
  rw [if_neg (by omega), if_neg (by omega), if_pos (by omega)]
  simp only [List.cons.injEq, and_true]
  exact ⟨ofNat_eq (by omega), ofNat_eq (by omega), ofNat_eq (by omega)⟩

private theorem encodeChar_four {b x y z : UInt8} (h₁ : 0xF0 ≤ b.toNat) (h₂ : b.toNat ≤ 0xF4)
    (hx : IsTail x) (hlow : b.toNat = 0xF0 → 0x90 ≤ x.toNat)
    (hhigh : b.toNat = 0xF4 → x.toNat ≤ 0x8F) (hy : IsTail y) (hz : IsTail z) :
    String.utf8EncodeChar (Char.ofNat
      (((b.toNat % 8 * 64 + x.toNat % 64) * 64 + y.toNat % 64) * 64 + z.toNat % 64)) =
      [b, x, y, z] := by
  obtain ⟨hx₁, hx₂⟩ := hx
  obtain ⟨hy₁, hy₂⟩ := hy
  obtain ⟨hz₁, hz₂⟩ := hz
  generalize hn : ((b.toNat % 8 * 64 + x.toNat % 64) * 64 + y.toNat % 64) * 64 + z.toNat % 64 = n
  have hvalid : n.isValidChar := by
    unfold Nat.isValidChar
    omega
  have hv : (Char.ofNat n).val.toNat = n := toNat_ofNat hvalid
  simp only [String.utf8EncodeChar, hv]
  rw [if_neg (by omega), if_neg (by omega), if_neg (by omega)]
  simp only [List.cons.injEq, and_true]
  exact ⟨ofNat_eq (by omega), ofNat_eq (by omega), ofNat_eq (by omega), ofNat_eq (by omega)⟩

theorem sequence_encodeChar (c : Char) : Sequence (String.utf8EncodeChar c) := by
  have hvalid : c.val.toNat < 0xD800 ∨ (0xDFFF < c.val.toNat ∧ c.val.toNat < 0x110000) := c.valid
  unfold String.utf8EncodeChar
  dsimp only
  generalize c.val.toNat = v at hvalid
  have hbyte : ∀ n, n < 256 → (UInt8.ofNat n).toNat = n := fun n hn => UInt8.toNat_ofNat_of_lt' hn
  split
  · exact .one (by rw [hbyte v (by omega)]; omega)
  · split
    · have hb := hbyte (v / 64 % 0x20 + 0xC0) (by omega)
      have hx := hbyte (v % 0x40 + 0x80) (by omega)
      exact .two (by omega) (by omega) ⟨by omega, by omega⟩
    · split
      · have hb := hbyte (v / 4096 % 0x10 + 0xE0) (by omega)
        have hx := hbyte (v / 64 % 0x40 + 0x80) (by omega)
        have hy := hbyte (v % 0x40 + 0x80) (by omega)
        exact .three (by omega) (by omega) ⟨by omega, by omega⟩ (by omega) (by omega)
          ⟨by omega, by omega⟩
      · have hb := hbyte (v / 262144 % 0x08 + 0xF0) (by omega)
        have hx := hbyte (v / 4096 % 0x40 + 0x80) (by omega)
        have hy := hbyte (v / 64 % 0x40 + 0x80) (by omega)
        have hz := hbyte (v % 0x40 + 0x80) (by omega)
        exact .four (by omega) (by omega) ⟨by omega, by omega⟩ (by omega) (by omega)
          ⟨by omega, by omega⟩ ⟨by omega, by omega⟩

private theorem scan_tail {q : Partial} {x : UInt8} (h : q.low ≤ x ∧ x ≤ q.high) (hl : q.left ≠ 1)
    (chars : List Char) (index : Nat) (bs : List UInt8) :
    scan chars index (some q) (x :: bs) = scan chars index (some (q.push x)) bs := by
  rw [scan]
  rw [if_pos h, if_neg hl]

private theorem scan_last {q : Partial} {x : UInt8} (h : q.low ≤ x ∧ x ≤ q.high) (hl : q.left = 1)
    (chars : List Char) (index : Nat) (bs : List UInt8) :
    scan chars index (some q) (x :: bs) =
      scan (Char.ofNat (q.push x).value :: chars) (index + (q.seen + 1)) none bs := by
  rw [scan]
  rw [if_pos h, if_pos hl]

theorem IsTail.mem {x : UInt8} (hx : IsTail x) : (0x80 : UInt8) ≤ x ∧ x ≤ 0xBF :=
  ⟨UInt8.le_iff_toNat_le.2 hx.1, UInt8.le_iff_toNat_le.2 hx.2⟩

/-- The range of a second byte is narrowed from below after `e` and from above after `d`. -/
theorem mem_second_iff (b x e d low high : UInt8) (hlow : 0x80 ≤ low.toNat)
    (hhigh : high.toNat ≤ 0xBF) :
    ((if b = e then low else 0x80) ≤ x ∧ x ≤ if b = d then high else 0xBF) ↔
      IsTail x ∧ (b.toNat = e.toNat → low.toNat ≤ x.toNat) ∧
        (b.toNat = d.toNat → x.toNat ≤ high.toNat) := by
  simp only [UInt8.le_iff_toNat_le, IsTail, ← UInt8.toNat_inj, apply_ite UInt8.toNat,
    UInt8.reduceToNat]
  split <;> split <;> omega

theorem Sequence.scan {seq : List UInt8} (h : Sequence seq) :
    ∃ c, String.utf8EncodeChar c = seq ∧ ∀ chars index rest,
      scan chars index none (seq ++ rest) = scan (c :: chars) (index + seq.length) none rest := by
  cases h with
  | @one b hb =>
    refine ⟨Char.ofNat b.toNat, encodeChar_one hb, fun chars index rest => ?_⟩
    simp [Utf8.scan, ofLead?_one hb]
  | @two b x h₁ h₂ hx =>
    refine ⟨_, encodeChar_two h₁ h₂ hx, fun chars index rest => ?_⟩
    simp only [List.cons_append, List.nil_append]
    rw [Utf8.scan]
    simp only [ofLead?_two h₁ h₂]
    rw [if_neg (by decide), scan_last hx.mem rfl]
    rfl
  | @three b x y h₁ h₂ hx hlow hhigh hy =>
    refine ⟨_, encodeChar_three h₁ h₂ hx hlow hhigh hy, fun chars index rest => ?_⟩
    have hsecond := (mem_second_iff b x 0xE0 0xED 0xA0 0x9F (by decide) (by decide)).2
      ⟨hx, hlow, hhigh⟩
    simp only [List.cons_append, List.nil_append]
    rw [Utf8.scan]
    simp only [ofLead?_three h₁ h₂]
    rw [if_neg (by decide), scan_tail hsecond (by simp), scan_last hy.mem rfl]
    rfl
  | @four b x y z h₁ h₂ hx hlow hhigh hy hz =>
    refine ⟨_, encodeChar_four h₁ h₂ hx hlow hhigh hy hz, fun chars index rest => ?_⟩
    have hsecond := (mem_second_iff b x 0xF0 0xF4 0x90 0x8F (by decide) (by decide)).2
      ⟨hx, hlow, hhigh⟩
    simp only [List.cons_append, List.nil_append]
    rw [Utf8.scan]
    simp only [ofLead?_four h₁ h₂]
    rw [if_neg (by decide), scan_tail hsecond (by simp), scan_tail hy.mem (by simp [Partial.push]),
      scan_last hz.mem rfl]
    rfl

theorem utf8EncodeChar_injective {c c' : Char}
    (h : String.utf8EncodeChar c = String.utf8EncodeChar c') : c = c' := by
  have hd := @List.utf8DecodeChar?_utf8Encode_singleton c
  rw [List.utf8Encode_singleton, h, ← List.utf8Encode_singleton,
    List.utf8DecodeChar?_utf8Encode_singleton] at hd
  exact (Option.some.inj hd).symm

theorem scan_encodeChar (c : Char) (chars : List Char) (index : Nat) (rest : List UInt8) :
    scan chars index none (String.utf8EncodeChar c ++ rest) =
      scan (c :: chars) (index + (String.utf8EncodeChar c).length) none rest := by
  obtain ⟨c', hc', hscan⟩ := (sequence_encodeChar c).scan
  rw [← utf8EncodeChar_injective hc']
  rw [hc']
  exact hscan chars index rest

theorem scan_some_ok {q : Partial} {chars cs : List Char} {index : Nat} {bs : List UInt8}
    (h : scan chars index (some q) bs = .ok cs) :
    ∃ x rest, bs = x :: rest ∧ (q.low ≤ x ∧ x ≤ q.high) := by
  cases bs with
  | nil => simp [scan] at h
  | cons x rest =>
    rw [scan] at h
    split at h
    · next hx => exact ⟨x, rest, rfl, hx⟩
    · simp at h

theorem isTail_of_mem {x : UInt8} (h : (0x80 : UInt8) ≤ x ∧ x ≤ 0xBF) : IsTail x :=
  ⟨UInt8.le_iff_toNat_le.1 h.1, UInt8.le_iff_toNat_le.1 h.2⟩

theorem scan_none_ok {chars cs : List Char} {index : Nat} {b : UInt8} {bs : List UInt8}
    (h : scan chars index none (b :: bs) = .ok cs) :
    ∃ seq rest, b :: bs = seq ++ rest ∧ Sequence seq := by
  rw [scan] at h
  split at h
  · simp at h
  · next q hq =>
    obtain hb | ⟨h₁, h₂⟩ | ⟨h₁, h₂⟩ | ⟨h₁, h₂⟩ := ofLead?_cases hq
    · exact ⟨[b], bs, rfl, .one hb⟩
    · obtain rfl := Option.some.inj ((ofLead?_two h₁ h₂).symm.trans hq)
      rw [if_neg (by simp)] at h
      obtain ⟨x, rest, rfl, hx⟩ := scan_some_ok h
      exact ⟨[b, x], rest, rfl, .two h₁ h₂ (isTail_of_mem hx)⟩
    · obtain rfl := Option.some.inj ((ofLead?_three h₁ h₂).symm.trans hq)
      rw [if_neg (by simp)] at h
      obtain ⟨x, bs, rfl, hx⟩ := scan_some_ok h
      rw [scan_tail hx (by simp)] at h
      obtain ⟨y, rest, rfl, hy⟩ := scan_some_ok h
      obtain ⟨hx, hlow, hhigh⟩ := (mem_second_iff _ _ _ _ _ _ (by decide) (by decide)).1 hx
      exact ⟨[b, x, y], rest, rfl, .three h₁ h₂ hx hlow hhigh (isTail_of_mem hy)⟩
    · obtain rfl := Option.some.inj ((ofLead?_four h₁ h₂).symm.trans hq)
      rw [if_neg (by simp)] at h
      obtain ⟨x, bs, rfl, hx⟩ := scan_some_ok h
      rw [scan_tail hx (by simp)] at h
      obtain ⟨y, bs, rfl, hy⟩ := scan_some_ok h
      rw [scan_tail hy (by simp [Partial.push])] at h
      obtain ⟨z, rest, rfl, hz⟩ := scan_some_ok h
      obtain ⟨hx, hlow, hhigh⟩ := (mem_second_iff _ _ _ _ _ _ (by decide) (by decide)).1 hx
      exact ⟨[b, x, y, z], rest, rfl,
        .four h₁ h₂ hx hlow hhigh (isTail_of_mem hy) (isTail_of_mem hz)⟩

def encoding (s : String) : List UInt8 :=
  s.toUTF8.data.toList

theorem encoding_eq_flatMap (s : String) :
    encoding s = s.toList.flatMap String.utf8EncodeChar := by
  unfold encoding
  rw [String.toUTF8_eq_toByteArray, ← String.utf8Encode_toList, List.utf8Encode]
  simp

theorem scan_flatMap (cs chars : List Char) (index : Nat) :
    scan chars index none (cs.flatMap String.utf8EncodeChar) = .ok (chars.reverse ++ cs) := by
  induction cs generalizing chars index with
  | nil => simp [scan]
  | cons c cs ih =>
    rw [List.flatMap_cons, scan_encodeChar, ih]
    simp

theorem flatMap_of_scan {bs : List UInt8} {chars cs : List Char} {index : Nat}
    (h : scan chars index none bs = .ok cs) :
    ∃ cs', cs = chars.reverse ++ cs' ∧ bs = cs'.flatMap String.utf8EncodeChar := by
  generalize hn : bs.length = n
  induction n using Nat.strongRecOn generalizing bs chars index with
  | ind n ih =>
    cases bs with
    | nil =>
      refine ⟨[], ?_, rfl⟩
      simpa [scan] using h.symm
    | cons b bs =>
      obtain ⟨seq, rest, hseq, hchar⟩ := scan_none_ok h
      obtain ⟨c, rfl, hscan⟩ := hchar.scan
      rw [hseq, hscan] at h
      have hpos : 0 < (String.utf8EncodeChar c).length := by
        rw [String.length_utf8EncodeChar]
        exact Char.utf8Size_pos c
      have hlen := congrArg List.length hseq
      rw [List.length_append] at hlen
      obtain ⟨cs', rfl, rfl⟩ := ih rest.length (by omega) h rfl
      exact ⟨c :: cs', by simp, by rw [hseq, List.flatMap_cons]⟩

theorem decode_eq_ok_iff {bs : List UInt8} {s : String} :
    decode bs = .ok s ↔ bs = encoding s := by
  rw [decode, encoding_eq_flatMap]
  constructor
  · intro h
    cases hscan : scan [] 0 none bs with
    | error fault => simp [hscan, Except.map] at h
    | ok cs =>
      obtain ⟨cs', rfl, rfl⟩ := flatMap_of_scan hscan
      rw [hscan] at h
      obtain rfl := Except.ok.inj h
      simp
  · intro h
    subst h
    rw [scan_flatMap]
    simp [Except.map]

end WasmBinary.Utf8
