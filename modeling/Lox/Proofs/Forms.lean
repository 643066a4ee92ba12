import Mathlib.Data.List.Basic
import Lox.Syntax.Printer

/-!
# Forms in parentheses

A printed tree is words, and forms between parentheses with a blank between each two. Where no word is
empty or holds a blank or a parenthesis, such a text can be read in one way only, whatever follows it.
-/

namespace Lox

/-- A word, or forms between parentheses. -/
inductive Form
  | word (w : String)
  | group (items : List Form)

mutual

def Form.text : Form → String
  | .word w => w
  | .group items => parenthesize (Form.texts items)

def Form.texts : List Form → List String
  | [] => []
  | x :: xs => x.text :: Form.texts xs

end

attribute [simp] Form.text Form.texts

/-- Neither a blank nor a parenthesis. -/
def Form.IsPlain (c : Char) : Prop := c ≠ ' ' ∧ c ≠ '(' ∧ c ≠ ')'

instance (c : Char) : Decidable (Form.IsPlain c) := inferInstanceAs (Decidable (_ ∧ _))

/-- A word that ends only where a blank, a parenthesis or nothing follows. -/
def Form.PlainWord (w : String) : Prop := w.toList ≠ [] ∧ ∀ c ∈ w.toList, IsPlain c

-- By the characters of the word: a decision over all characters would be found too.
instance (w : String) : Decidable (Form.PlainWord w) :=
  have := List.decidableBAll Form.IsPlain w.toList
  inferInstanceAs (Decidable (_ ∧ _))

mutual

def Form.Plain : Form → Prop
  | .word w => PlainWord w
  | .group items => Form.PlainAll items

def Form.PlainAll : List Form → Prop
  | [] => True
  | x :: xs => x.Plain ∧ Form.PlainAll xs

end

mutual

def Form.decidePlain : (x : Form) → Decidable x.Plain
  | .word w => inferInstanceAs (Decidable (Form.PlainWord w))
  | .group items => Form.decidePlainAll items

def Form.decidePlainAll : (xs : List Form) → Decidable (Form.PlainAll xs)
  | [] => .isTrue trivial
  | x :: xs =>
    have := Form.decidePlain x
    have := Form.decidePlainAll xs
    inferInstanceAs (Decidable (_ ∧ _))

end

instance (x : Form) : Decidable x.Plain := x.decidePlain

namespace Form

/-- A word does not go on into this text. -/
def Ends (r : List Char) : Prop := ∀ c ∈ r.head?, ¬ IsPlain c

theorem PlainWord.append_inj {w w' : String} {r r' : List Char} (hw : PlainWord w)
    (hw' : PlainWord w') (hr : Ends r) (hr' : Ends r') (h : w.toList ++ r = w'.toList ++ r') :
    w = w' ∧ r = r' := by
  have cut : ∀ {w : String} {r : List Char}, PlainWord w → Ends r →
      (w.toList ++ r).takeWhile (fun c => decide (IsPlain c)) = w.toList := by
    intro w r hw hr
    rw [List.takeWhile_append_of_pos (by simpa using hw.2)]
    cases r with
    | nil => simp
    | cons c r => simp [hr c rfl]
  have hword : w.toList = w'.toList := by rw [← cut hw hr, h, cut hw' hr']
  rw [hword] at h
  exact ⟨String.toList_inj.1 hword, List.append_cancel_left h⟩

/-- The rest of a group behind one of its items, and what follows the group. -/
def behind (items : List Form) (r : List Char) : List Char :=
  items.flatMap (fun x => ' ' :: x.text.toList) ++ ')' :: r

theorem ends_behind (items : List Form) (r : List Char) : Ends (behind items r) := by
  intro c hc
  cases items with
  | nil =>
    obtain rfl : ')' = c := by simpa [behind] using hc
    decide
  | cons x items =>
    obtain rfl : ' ' = c := by simpa [behind] using hc
    decide

theorem texts_behind (x : Form) (items : List Form) (r : List Char) :
    (" ".intercalate (texts (x :: items))).toList ++ ')' :: r = x.text.toList ++ behind items r := by
  induction items generalizing x with
  | nil => simp [texts, behind]
  | cons y items ih =>
    simpa [texts, behind] using ih y

theorem text_group (items : List Form) (r : List Char) :
    (group items).text.toList ++ r =
      '(' :: ((" ".intercalate (texts items)).toList ++ ')' :: r) := by
  simp [text, parenthesize]

/-- A form begins with a parenthesis or with a character of a word. -/
theorem Plain.begins {x : Form} (hx : x.Plain) : ∃ c cs, x.text.toList = c :: cs ∧ c ≠ ')' := by
  cases x with
  | word w =>
    obtain ⟨c, cs, hc⟩ := List.exists_cons_of_ne_nil hx.1
    exact ⟨c, cs, hc, (hx.2 c (hc ▸ List.mem_cons_self)).2.2⟩
  | group items => exact ⟨'(', _, by simpa using text_group items [], by decide⟩

mutual

/-- A form ends where it ends, whatever follows. -/
theorem text_append_inj : ∀ (x y : Form) {r r' : List Char}, x.Plain → y.Plain → Ends r → Ends r' →
    x.text.toList ++ r = y.text.toList ++ r' → x = y ∧ r = r'
  | .word w, .word w', r, r', hx, hy, hr, hr', h => by
    obtain ⟨rfl, rfl⟩ := PlainWord.append_inj hx hy hr hr' h
    exact ⟨rfl, rfl⟩
  | .word w, .group items, r, r', hx, hy, hr, hr', h => by
    obtain ⟨c, cs, hc⟩ := List.exists_cons_of_ne_nil hx.1
    rw [text_group, text, hc] at h
    have hplain := hx.2 c (hc ▸ List.mem_cons_self)
    exact absurd (List.cons.inj h).1 hplain.2.1
  | .group items, .word w, r, r', hx, hy, hr, hr', h => by
    obtain ⟨c, cs, hc⟩ := List.exists_cons_of_ne_nil hy.1
    rw [text_group, text, hc] at h
    have hplain := hy.2 c (hc ▸ List.mem_cons_self)
    exact absurd (List.cons.inj h).1.symm hplain.2.1
  | .group items, .group items', r, r', hx, hy, hr, hr', h => by
    rw [text_group, text_group] at h
    have h := (List.cons.inj h).2
    cases items with
    | nil =>
      cases items' with
      | nil => exact ⟨rfl, by simpa [texts] using h⟩
      | cons y ys =>
        obtain ⟨c, cs, hc, hne⟩ := hy.1.begins
        rw [texts_behind, hc] at h
        exact absurd (by simpa [texts] using (List.cons.inj h).1.symm) hne
    | cons x xs =>
      cases items' with
      | nil =>
        obtain ⟨c, cs, hc, hne⟩ := hx.1.begins
        rw [texts_behind, hc] at h
        exact absurd (by simpa [texts] using (List.cons.inj h).1) hne
      | cons y ys =>
        rw [texts_behind, texts_behind] at h
        obtain ⟨rfl, hrest⟩ :=
          text_append_inj x y hx.1 hy.1 (ends_behind xs r) (ends_behind ys r') h
        obtain ⟨rfl, rfl⟩ := behind_inj xs ys hx.2 hy.2 hrest
        exact ⟨rfl, rfl⟩

theorem behind_inj : ∀ (xs ys : List Form) {r r' : List Char}, PlainAll xs → PlainAll ys →
    behind xs r = behind ys r' → xs = ys ∧ r = r'
  | [], [], r, r', _, _, h => ⟨rfl, by simpa [behind] using h⟩
  | [], y :: ys, r, r', _, _, h => by simp [behind] at h
  | x :: xs, [], r, r', _, _, h => by simp [behind] at h
  | x :: xs, y :: ys, r, r', hx, hy, h => by
    have h : x.text.toList ++ behind xs r = y.text.toList ++ behind ys r' := by
      simpa [behind] using h
    obtain ⟨rfl, hrest⟩ := text_append_inj x y hx.1 hy.1 (ends_behind xs r) (ends_behind ys r') h
    obtain ⟨rfl, rfl⟩ := behind_inj xs ys hx.2 hy.2 hrest
    exact ⟨rfl, rfl⟩

end

/-- A text is the text of one form at most. -/
theorem text_inj {x y : Form} (hx : x.Plain) (hy : y.Plain) (h : x.text = y.text) : x = y := by
  have hnil : Ends [] := by simp [Ends]
  exact (text_append_inj x y hx hy hnil hnil (by rw [h])).1

end Form

end Lox
