import WasmBinary.Index
import WasmBinary.Types.Basic

/-! Texts that can be taken apart again.

A token is a text of characters of one class. What follows it begins with a character outside
that class, or is empty, so the token ends where the class does: two texts that begin with
tokens and are equal have the same token and the same rest. Lists of tokens after a separator
each are recovered one by one. -/
namespace WasmBinary.Text

/-- The text does not go on with a character of the class. -/
def Stops (P : Char → Bool) (r : List Char) : Prop :=
  ∀ c ∈ r.head?, P c = false

@[simp] theorem stops_nil (P : Char → Bool) : Stops P [] := by
  simp [Stops]

@[simp] theorem stops_cons (P : Char → Bool) (c : Char) (r : List Char) :
    Stops P (c :: r) ↔ P c = false := by
  simp [Stops]

private theorem Stops.takeWhile_append {P : Char → Bool} {xs r : List Char} (hr : Stops P r)
    (hxs : ∀ c ∈ xs, P c = true) : (xs ++ r).takeWhile P = xs := by
  rw [List.takeWhile_append_of_pos hxs]
  cases r with
  | nil => simp
  | cons c r => simp [(stops_cons P c r).1 hr]

theorem append_inj_of_stops {P : Char → Bool} {xs ys r s : List Char}
    (hxs : ∀ c ∈ xs, P c = true) (hys : ∀ c ∈ ys, P c = true) (hr : Stops P r) (hs : Stops P s)
    (h : xs ++ r = ys ++ s) : xs = ys ∧ r = s := by
  have htoken : xs = ys := by
    rw [← hr.takeWhile_append hxs, h, hs.takeWhile_append hys]
  subst htoken
  exact ⟨rfl, List.append_cancel_left h⟩

/-- Texts of characters of one class, different for different values. -/
structure IsToken {α : Type} (P : Char → Bool) (f : α → String) : Prop where
  mem : ∀ a, ∀ c ∈ (f a).toList, P c = true
  inj : ∀ a b, f a = f b → a = b

section Token

variable {α : Type} {P : Char → Bool} {f : α → String} {a b : α} {r s : List Char}

theorem IsToken.append_inj (hf : IsToken P f) (hr : Stops P r) (hs : Stops P s)
    (h : (f a).toList ++ r = (f b).toList ++ s) : a = b ∧ r = s := by
  obtain ⟨htoken, hrest⟩ := append_inj_of_stops (hf.mem a) (hf.mem b) hr hs h
  exact ⟨hf.inj a b (String.toList_inj.1 htoken), hrest⟩

/-- The same after a text that both have in common. -/
theorem IsToken.append_inj_after (hf : IsToken P f) {before : List Char} (hr : Stops P r)
    (hs : Stops P s) (h : before ++ ((f a).toList ++ r) = before ++ ((f b).toList ++ s)) :
    a = b ∧ r = s :=
  hf.append_inj hr hs (List.append_cancel_left h)

/-- Values after the same separator each. -/
def separated (sep : List Char) (f : α → String) (as : List α) : List Char :=
  as.flatMap fun a => sep ++ (f a).toList

@[simp] theorem separated_cons (sep : List Char) (f : α → String) (a : α) (as : List α) :
    separated sep f (a :: as) = sep ++ (f a).toList ++ separated sep f as := by
  simp [separated]

theorem stops_separated_append {d : Char} {sep : List Char} (as : List α) (hd : P d = false)
    (hr : Stops P r) : Stops P (separated (d :: sep) f as ++ r) := by
  cases as with
  | nil => exact hr
  | cons a as => simp [hd]

/-- The list ends before a text that begins neither with a character of the class nor with the
first character of the separator. -/
theorem IsToken.separated_inj (hf : IsToken P f) {d : Char} {sep : List Char} (hd : P d = false)
    (hr : Stops (fun c => P c || c == d) r) (hs : Stops (fun c => P c || c == d) s)
    {as bs : List α} (h : separated (d :: sep) f as ++ r = separated (d :: sep) f bs ++ s) :
    as = bs ∧ r = s := by
  have stops_of {t : List Char} (ht : Stops (fun c => P c || c == d) t) : Stops P t :=
    fun c hc => (Bool.or_eq_false_iff.1 (ht c hc)).1
  have differs {t u : List Char} (ht : Stops (fun c => P c || c == d) t) : t ≠ d :: u := by
    intro heq
    simp [heq] at ht
  induction as generalizing bs with
  | nil =>
    cases bs with
    | nil => exact ⟨rfl, h⟩
    | cons b bs =>
      rw [separated_cons] at h
      exact absurd h (differs hr)
  | cons a as ih =>
    cases bs with
    | nil =>
      rw [separated_cons] at h
      exact absurd h.symm (differs hs)
    | cons b bs =>
      simp only [separated_cons, List.append_assoc] at h
      have htail := List.append_cancel_left h
      obtain ⟨rfl, hrest⟩ := hf.append_inj (stops_separated_append as hd (stops_of hr))
        (stops_separated_append bs hd (stops_of hs)) htail
      obtain ⟨rfl, rfl⟩ := ih hrest
      exact ⟨rfl, rfl⟩

theorem toList_join_spaced (f : α → String) (as : List α) :
    (String.join (as.map fun a => " " ++ f a)).toList = separated [' '] f as := by
  simp [separated, String.toList_join, List.flatMap_map]

theorem toList_intercalate_map_cons (sep : String) (f : α → String) (a : α) (as : List α) :
    (String.intercalate sep ((a :: as).map f)).toList =
      (f a).toList ++ separated sep.toList f as := by
  induction as generalizing a with
  | nil => simp [separated]
  | cons b as ih =>
    rw [List.map_cons, List.map_cons, String.intercalate_cons_cons, ← List.map_cons,
      String.toList_append, String.toList_append, ih, separated_cons]
    simp

end Token

private theorem toList_toString (n : Nat) : (toString n).toList = Nat.toDigits 10 n := by
  rw [Nat.toString_eq_repr, Nat.toList_repr]

theorem isToken_decimal : IsToken Char.isDigit fun n : Nat => toString n where
  mem n c hc := by
    rw [toList_toString] at hc
    exact Nat.isDigit_of_mem_toDigits (by decide) (by decide) hc
  inj m n h := by
    have hlist := congrArg String.toList h
    simp only [toList_toString] at hlist
    have hvalue := congrArg (fun digits => Nat.ofDigitChars 10 digits 0) hlist
    simpa using hvalue

theorem isToken_index {space : IndexSpace} :
    IsToken Char.isDigit (Index.text : Index space → String) where
  mem i := isToken_decimal.mem i.value.toNat
  inj i j h := by
    have hvalue := UInt32.toNat_inj.1 (isToken_decimal.inj _ _ h)
    cases i
    cases j
    simpa using hvalue

theorem isToken_valType : IsToken Char.isAlphanum ValType.text where
  mem t := by cases t <;> simp [ValType.text]
  inj t u := by cases t <;> cases u <;> simp [ValType.text]

/-- A sign is no digit, so it tells the negative numbers from the others. -/
theorem toString_int_inj {m n : Int} (h : toString m = toString n) : m = n := by
  have sign_notMem (k : Nat) : '-' ∉ (toString k).toList := fun hmem =>
    absurd (isToken_decimal.mem k '-' hmem) (by decide)
  have differs (j k : Nat) : toString j ≠ "-" ++ toString k := by
    intro heq
    apply sign_notMem j
    simp [heq]
  cases m with
  | ofNat j =>
    cases n with
    | ofNat k => exact congrArg Int.ofNat (isToken_decimal.inj j k h)
    | negSucc k => exact absurd h (differs j (k + 1))
  | negSucc j =>
    cases n with
    | ofNat k => exact absurd h.symm (differs k (j + 1))
    | negSucc k =>
      have habs := isToken_decimal.inj (j + 1) (k + 1) ((String.append_right_inj "-").1 h)
      rw [Nat.succ.inj habs]

theorem toList_listText_nil : (ValType.listText []).toList = ['(', ')'] := by
  simp [ValType.listText]

theorem toList_listText_cons (t : ValType) (ts : List ValType) :
    (ValType.listText (t :: ts)).toList =
      '(' :: (t.text.toList ++ (separated [',', ' '] ValType.text ts ++ [')'])) := by
  rw [ValType.listText, String.toList_append, String.toList_append, toList_intercalate_map_cons]
  simp

theorem listText_append_inj {ts us : List ValType} {r s : List Char}
    (h : (ValType.listText ts).toList ++ r = (ValType.listText us).toList ++ s) :
    ts = us ∧ r = s := by
  -- No type is written as the closing parenthesis that ends an empty list.
  have differs (t : ValType) (u v : List Char) : ')' :: u ≠ t.text.toList ++ v := by
    cases t <;> simp [ValType.text]
  cases ts with
  | nil =>
    cases us with
    | nil => exact ⟨rfl, List.append_cancel_left h⟩
    | cons u us =>
      have hempty : ')' :: r =
          u.text.toList ++ (separated [',', ' '] ValType.text us ++ ')' :: s) := by
        simpa [toList_listText_nil, toList_listText_cons] using h
      exact absurd hempty (differs u _ _)
  | cons t ts =>
    cases us with
    | nil =>
      have hempty : ')' :: s =
          t.text.toList ++ (separated [',', ' '] ValType.text ts ++ ')' :: r) := by
        simpa [toList_listText_nil, toList_listText_cons] using h.symm
      exact absurd hempty (differs t _ _)
    | cons u us =>
      have htypes : t.text.toList ++ (separated [',', ' '] ValType.text ts ++ ')' :: r) =
          u.text.toList ++ (separated [',', ' '] ValType.text us ++ ')' :: s) := by
        simpa [toList_listText_cons] using h
      obtain ⟨rfl, hrest⟩ := isToken_valType.append_inj
        (stops_separated_append ts (by decide) (by simp))
        (stops_separated_append us (by decide) (by simp)) htypes
      obtain ⟨rfl, hclose⟩ := isToken_valType.separated_inj (by decide) (by simp) (by simp) hrest
      exact ⟨rfl, (List.cons.inj hclose).2⟩

end WasmBinary.Text
