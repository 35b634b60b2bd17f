import Adg.SortedLists

/-!
# Canonical JSON

A value is written with its keys in order and without blanks, so that two
spellings of one mapping become one text. Reading from the left, every value
ends where it says it ends. Two values with one text are the same value.
-/

set_option autoImplicit false

namespace Adg.CanonicalJson
open Adg.SortedLists

/-- A value without fractions. The fields of an object stand in the order they were given. -/
inductive Json where
  | null
  | bool (b : Bool)
  | whole (n : ℤ)
  | text (s : String)
  | array (items : List Json)
  | object (fields : List (String × Json))

def quote : Char := '\x22'
def backslash : Char := '\x5c'

/-- What stands for a character between two quotes. -/
def escapeChar (c : Char) : List Char :=
  if c = quote then [backslash, quote]
  else if c = backslash then [backslash, backslash]
  else if c = '\n' then [backslash, 'n']
  else if c = '\r' then [backslash, 'r']
  else if c = '\t' then [backslash, 't']
  else if c = '\x08' then [backslash, 'b']
  else if c = '\x0c' then [backslash, 'f']
  else if c.toNat < 32 then
    [backslash, 'u', '0', '0', Nat.digitChar (c.toNat/16), Nat.digitChar (c.toNat%16)]
  else [c]

def renderText (s : String) : List Char := quote :: (s.toList.flatMap escapeChar ++ [quote])

def renderWhole (n : ℤ) : List Char :=
  if n < 0 then '-' :: Nat.toDigits 10 n.natAbs else Nat.toDigits 10 n.natAbs

mutual

def render : Json → List Char
  | .null => ['n', 'u', 'l', 'l']
  | .bool true => ['t', 'r', 'u', 'e']
  | .bool false => ['f', 'a', 'l', 's', 'e']
  | .whole n => renderWhole n
  | .text s => renderText s
  | .array items => '[' :: renderItems true items
  | .object fields => '{' :: renderFields true fields

/-- The rest of an array. Every item but the first one follows a comma. -/
def renderItems : Bool → List Json → List Char
  | _, [] => [']']
  | true, x :: xs => render x ++ renderItems false xs
  | false, x :: xs => ',' :: (render x ++ renderItems false xs)

def renderFields : Bool → List (String × Json) → List Char
  | _, [] => ['}']
  | true, (k,x) :: xs => renderText k ++ ':' :: (render x ++ renderFields false xs)
  | false, (k,x) :: xs => ',' :: (renderText k ++ ':' :: (render x ++ renderFields false xs))

end

mutual

/-- Keys are compared by code point. -/
def sortKeys : Json → Json
  | .array items => .array (sortItems items)
  | .object fields => .object (sortedBy Prod.fst (sortFields fields))
  | .null => .null
  | .bool b => .bool b
  | .whole n => .whole n
  | .text s => .text s

def sortItems : List Json → List Json
  | [] => []
  | x :: xs => sortKeys x :: sortItems xs

def sortFields : List (String × Json) → List (String × Json)
  | [] => []
  | (k,x) :: xs => (k,sortKeys x) :: sortFields xs

end

/-- `json.dumps` with sorted keys, no blanks and no escapes beyond the necessary. -/
def canonical (value : Json) : String := String.ofList (render (sortKeys value))

/-- Equal as values, whatever the order of their keys. -/
def Same (v w : Json) : Prop := sortKeys v = sortKeys w

theorem Same.symm {v w : Json} (h : Same v w) : Same w v := Eq.symm h

theorem Same.trans {u v w : Json} (h : Same u v) (h' : Same v w) : Same u w := Eq.trans h h'

section Texts

/-- One character read back from between two quotes; the closing quote is none. -/
def unescape : List Char → Option (Char × List Char)
  | [] => none
  | c :: rest =>
    if c = quote then none
    else if c ≠ backslash then some (c,rest)
    else match rest with
      | 'n' :: rest => some ('\n',rest)
      | 'r' :: rest => some ('\r',rest)
      | 't' :: rest => some ('\t',rest)
      | 'b' :: rest => some ('\x08',rest)
      | 'f' :: rest => some ('\x0c',rest)
      | 'u' :: _ :: _ :: high :: low :: rest =>
        some (Char.ofNat (16*(high.toNat-48)+(if low.toNat < 58 then low.toNat-48
          else low.toNat-87)),rest)
      | c :: rest => some (c,rest)
      | [] => none

theorem control_digits : ∀ n < 32, 16*((Nat.digitChar (n/16)).toNat-48)+
    (if (Nat.digitChar (n%16)).toNat < 58 then (Nat.digitChar (n%16)).toNat-48
      else (Nat.digitChar (n%16)).toNat-87) = n := by
  decide

theorem unescape_escapeChar (c : Char) (rest : List Char) :
    unescape (escapeChar c ++ rest) = some (c,rest) := by
  unfold escapeChar
  split_ifs with hq hb hn hr ht hbs hf hc
  · subst hq; rfl
  · subst hb; rfl
  · subst hn; rfl
  · subst hr; rfl
  · subst ht; rfl
  · subst hbs; rfl
  · subst hf; rfl
  · have hcode := control_digits c.toNat hc
    simp [unescape, backslash, quote, hcode]
  · simp [unescape, hq, hb]

theorem unescape_quote (rest : List Char) : unescape (quote :: rest) = none := by
  simp [unescape]

theorem escaped_cancel {cs ds s t : List Char}
    (h : cs.flatMap escapeChar ++ quote :: s = ds.flatMap escapeChar ++ quote :: t) :
    cs = ds ∧ s = t := by
  induction cs generalizing ds with
  | nil =>
    cases ds with
    | nil => exact ⟨rfl,by simpa using h⟩
    | cons d ds =>
      have := congrArg unescape h
      rw [List.flatMap_cons, List.append_assoc, unescape_escapeChar] at this
      simp [unescape_quote] at this
  | cons c cs ih =>
    have hread := congrArg unescape h
    rw [List.flatMap_cons, List.append_assoc, unescape_escapeChar] at hread
    cases ds with
    | nil => simp [unescape_quote] at hread
    | cons d ds =>
      rw [List.flatMap_cons, List.append_assoc, unescape_escapeChar] at hread
      obtain ⟨rfl,hrest⟩ := Prod.mk.inj (Option.some.inj hread)
      obtain ⟨rfl,rfl⟩ := ih hrest
      exact ⟨rfl,rfl⟩

theorem renderText_cancel {a b : String} {s t : List Char}
    (h : renderText a ++ s = renderText b ++ t) : a = b ∧ s = t := by
  have hbody : a.toList.flatMap escapeChar ++ quote :: s =
      b.toList.flatMap escapeChar ++ quote :: t := by
    simpa [renderText] using h
  obtain ⟨hab,hst⟩ := escaped_cancel hbody
  exact ⟨String.ext hab,hst⟩

end Texts

section Numbers

theorem toDigits_injective : Function.Injective (Nat.toDigits 10) := by
  intro m n h
  rw [← Nat.ofDigitChars_ten_toDigits (n := m), h, Nat.ofDigitChars_ten_toDigits]

/-- What may follow a value: the end, a comma or a closing bracket. -/
def Stops (s : List Char) : Prop := ∀ c ∈ s.head?, c = ',' ∨ c = ']' ∨ c = '}'

theorem Stops.takeWhile {s : List Char} (h : Stops s) : s.takeWhile Char.isDigit = [] := by
  cases s with
  | nil => rfl
  | cons c s =>
    have hc : c.isDigit = false := by
      rcases h c (by simp) with rfl | rfl | rfl <;> decide
    simp [hc]

theorem digits_takeWhile (n : ℕ) {s : List Char} (h : Stops s) :
    (Nat.toDigits 10 n ++ s).takeWhile Char.isDigit = Nat.toDigits 10 n := by
  have hdigits : ∀ c ∈ Nat.toDigits 10 n, c.isDigit = true := fun c hc =>
    Nat.isDigit_of_mem_toDigits (by decide) (by decide) hc
  rw [List.takeWhile_append_of_pos hdigits, h.takeWhile, List.append_nil]

theorem digits_cancel {m n : ℕ} {s t : List Char} (hs : Stops s) (ht : Stops t)
    (h : Nat.toDigits 10 m ++ s = Nat.toDigits 10 n ++ t) : m = n ∧ s = t := by
  have hdigits : Nat.toDigits 10 m = Nat.toDigits 10 n := by
    rw [← digits_takeWhile m hs, h, digits_takeWhile n ht]
  obtain rfl := toDigits_injective hdigits
  exact ⟨rfl,List.append_cancel_left h⟩

theorem digits_head (n : ℕ) : ∃ c cs, Nat.toDigits 10 n = c :: cs ∧ c.isDigit = true := by
  cases h : Nat.toDigits 10 n with
  | nil => exact absurd h Nat.toDigits_ne_nil
  | cons c cs =>
    have hmem : c ∈ Nat.toDigits 10 n := by rw [h]; simp
    exact ⟨c,cs,rfl,Nat.isDigit_of_mem_toDigits (by decide) (by decide) hmem⟩

theorem renderWhole_cancel {a b : ℤ} {s t : List Char} (hs : Stops s) (ht : Stops t)
    (h : renderWhole a ++ s = renderWhole b ++ t) : a = b ∧ s = t := by
  obtain ⟨c,cs,hc,hcd⟩ := digits_head a.natAbs
  obtain ⟨d,ds,hd,hdd⟩ := digits_head b.natAbs
  unfold renderWhole at h
  split_ifs at h with ha hb hb
  · obtain ⟨hn,hst⟩ := digits_cancel hs ht (List.cons.inj h).2
    exact ⟨by omega,hst⟩
  · rw [hd] at h
    obtain rfl : '-' = d := (List.cons.inj h).1
    exact absurd hdd (by decide)
  · rw [hc] at h
    obtain rfl : c = '-' := (List.cons.inj h).1
    exact absurd hcd (by decide)
  · obtain ⟨hn,hst⟩ := digits_cancel hs ht h
    exact ⟨by omega,hst⟩

end Numbers

section Values

/-- Which constructor wrote a text that starts with this character. -/
def markOf (c : Char) : ℕ :=
  if c = 'n' then 0
  else if c = 't' ∨ c = 'f' then 1
  else if c = quote then 3
  else if c = '[' then 4
  else if c = '{' then 5
  else 2

def mark : Json → ℕ
  | .null => 0
  | .bool _ => 1
  | .whole _ => 2
  | .text _ => 3
  | .array _ => 4
  | .object _ => 5

theorem markOf_digit {c : Char} (h : c.isDigit = true) : markOf c = 2 := by
  have hne : ∀ d : Char, d.isDigit = false → c ≠ d := by
    rintro d hd rfl
    rw [hd] at h
    cases h
  unfold markOf
  rw [if_neg (hne 'n' rfl), if_neg (by simp [hne 't' rfl, hne 'f' rfl]), if_neg (hne quote rfl),
    if_neg (hne '[' rfl), if_neg (hne '{' rfl)]

theorem render_head (v : Json) :
    ∃ c cs, render v = c :: cs ∧ markOf c = mark v ∧ c ≠ ']' := by
  cases v with
  | null => exact ⟨_,_,rfl,rfl,by decide⟩
  | bool b => cases b <;> exact ⟨_,_,rfl,rfl,by decide⟩
  | whole n =>
    obtain ⟨c,cs,hc,hcd⟩ := digits_head n.natAbs
    have hne : c ≠ ']' := by rintro rfl; exact absurd hcd (by decide)
    by_cases hn : n < 0
    · exact ⟨'-',Nat.toDigits 10 n.natAbs,by simp [render, renderWhole, hn],rfl,by decide⟩
    · exact ⟨c,cs,by simp [render, renderWhole, hn, hc],markOf_digit hcd,hne⟩
  | text s => exact ⟨_,_,rfl,rfl,by decide⟩
  | array items => exact ⟨_,_,rfl,rfl,by decide⟩
  | object fields => exact ⟨_,_,rfl,rfl,by decide⟩

theorem mark_of_render {v w : Json} {s t : List Char} (h : render v ++ s = render w ++ t) :
    mark v = mark w := by
  obtain ⟨c,cs,hc,hm,-⟩ := render_head v
  obtain ⟨d,ds,hd,hn,-⟩ := render_head w
  rw [hc, hd] at h
  rw [← hm, ← hn, (List.cons.inj h).1]

theorem render_not_end (v : Json) (s t : List Char) : render v ++ s ≠ ']' :: t := by
  obtain ⟨c,cs,hc,-,hne⟩ := render_head v
  rw [hc]
  exact fun h => hne (List.cons.inj h).1

theorem stops_items (xs : List Json) (s : List Char) : Stops (renderItems false xs ++ s) := by
  cases xs <;> simp [Stops, renderItems]

theorem stops_fields (xs : List (String × Json)) (s : List Char) :
    Stops (renderFields false xs ++ s) := by
  rcases xs with _ | ⟨⟨k,x⟩,xs⟩ <;> simp [Stops, renderFields]

mutual

/-- A value and what follows it can be told apart. -/
theorem render_cancel (v w : Json) {s t : List Char} (hs : Stops s) (ht : Stops t)
    (h : render v ++ s = render w ++ t) : v = w ∧ s = t := by
  have hm := mark_of_render h
  match v, w, hm with
  | .null, .null, _ => exact ⟨rfl,by simpa [render] using h⟩
  | .bool a, .bool b, _ =>
    cases a <;> cases b <;> simp [render] at h <;> exact ⟨rfl,h⟩
  | .whole a, .whole b, _ =>
    obtain ⟨rfl,hst⟩ := renderWhole_cancel hs ht h
    exact ⟨rfl,hst⟩
  | .text a, .text b, _ =>
    obtain ⟨rfl,hst⟩ := renderText_cancel h
    exact ⟨rfl,hst⟩
  | .array xs, .array ys, _ =>
    obtain ⟨rfl,hst⟩ := renderItems_cancel true xs ys hs ht (List.cons.inj h).2
    exact ⟨rfl,hst⟩
  | .object xs, .object ys, _ =>
    obtain ⟨rfl,hst⟩ := renderFields_cancel true xs ys hs ht (List.cons.inj h).2
    exact ⟨rfl,hst⟩

theorem renderItems_cancel (first : Bool) (xs ys : List Json) {s t : List Char} (hs : Stops s)
    (ht : Stops t) (h : renderItems first xs ++ s = renderItems first ys ++ t) :
    xs = ys ∧ s = t := by
  match first, xs, ys with
  | _, [], [] =>
    cases first <;> exact ⟨rfl,(List.cons.inj h).2⟩
  | true, [], y :: ys =>
    rw [renderItems, renderItems, List.append_assoc] at h
    exact absurd h.symm (render_not_end y _ _)
  | true, x :: xs, [] =>
    rw [renderItems, renderItems, List.append_assoc] at h
    exact absurd h (render_not_end x _ _)
  | false, [], y :: ys => simp [renderItems] at h
  | false, x :: xs, [] => simp [renderItems] at h
  | true, x :: xs, y :: ys =>
    rw [renderItems, renderItems, List.append_assoc, List.append_assoc] at h
    obtain ⟨rfl,hrest⟩ := render_cancel x y (stops_items xs s) (stops_items ys t) h
    obtain ⟨rfl,hst⟩ := renderItems_cancel false xs ys hs ht hrest
    exact ⟨rfl,hst⟩
  | false, x :: xs, y :: ys =>
    rw [renderItems, renderItems, List.cons_append, List.cons_append, List.append_assoc,
      List.append_assoc] at h
    obtain ⟨rfl,hrest⟩ :=
      render_cancel x y (stops_items xs s) (stops_items ys t) (List.cons.inj h).2
    obtain ⟨rfl,hst⟩ := renderItems_cancel false xs ys hs ht hrest
    exact ⟨rfl,hst⟩

theorem renderFields_cancel (first : Bool) (xs ys : List (String × Json)) {s t : List Char}
    (hs : Stops s) (ht : Stops t) (h : renderFields first xs ++ s = renderFields first ys ++ t) :
    xs = ys ∧ s = t := by
  match first, xs, ys with
  | _, [], [] =>
    cases first <;> exact ⟨rfl,(List.cons.inj h).2⟩
  | true, [], (l,y) :: ys => simp [renderFields, renderText, quote] at h
  | true, (k,x) :: xs, [] => simp [renderFields, renderText, quote] at h
  | false, [], (l,y) :: ys => simp [renderFields] at h
  | false, (k,x) :: xs, [] => simp [renderFields] at h
  | true, (k,x) :: xs, (l,y) :: ys =>
    rw [renderFields, renderFields, List.append_assoc, List.append_assoc] at h
    obtain ⟨rfl,hvalue⟩ := renderText_cancel h
    rw [List.cons_append, List.cons_append, List.append_assoc, List.append_assoc] at hvalue
    obtain ⟨rfl,hrest⟩ :=
      render_cancel x y (stops_fields xs s) (stops_fields ys t) (List.cons.inj hvalue).2
    obtain ⟨rfl,hst⟩ := renderFields_cancel false xs ys hs ht hrest
    exact ⟨rfl,hst⟩
  | false, (k,x) :: xs, (l,y) :: ys =>
    rw [renderFields, renderFields, List.cons_append, List.cons_append, List.append_assoc,
      List.append_assoc] at h
    obtain ⟨rfl,hvalue⟩ := renderText_cancel (List.cons.inj h).2
    rw [List.cons_append, List.cons_append, List.append_assoc, List.append_assoc] at hvalue
    obtain ⟨rfl,hrest⟩ :=
      render_cancel x y (stops_fields xs s) (stops_fields ys t) (List.cons.inj hvalue).2
    obtain ⟨rfl,hst⟩ := renderFields_cancel false xs ys hs ht hrest
    exact ⟨rfl,hst⟩

end

/-- One text, one value. -/
theorem render_injective : Function.Injective render := by
  intro v w h
  have hnil : Stops [] := by simp [Stops]
  exact (render_cancel v w hnil hnil (by rw [h])).1

/-- Values without fractions are equal when they are written alike. -/
instance : DecidableEq Json := fun v w =>
  decidable_of_iff (render v = render w) render_injective.eq_iff

theorem canonical_eq_iff {v w : Json} : canonical v = canonical w ↔ Same v w := by
  refine ⟨fun h => render_injective ?_,fun h => congrArg (fun j => String.ofList (render j)) h⟩
  have := congrArg String.toList h
  simpa only [canonical, String.toList_ofList] using this

end Values

section Objects

theorem sortFields_eq (fields : List (String × Json)) :
    sortFields fields = fields.map fun f => (f.1,sortKeys f.2) := by
  induction fields with
  | nil => rfl
  | cons f fields ih => simp [sortFields, ih]

theorem sortItems_eq (items : List Json) : sortItems items = items.map sortKeys := by
  induction items with
  | nil => rfl
  | cons x items ih => simp [sortItems, ih]

theorem Same.items {xs ys : List Json} (h : Same (.array xs) (.array ys)) :
    xs.map sortKeys = ys.map sortKeys := by
  have h : Json.array (sortItems xs) = Json.array (sortItems ys) := by
    simpa only [Same, sortKeys] using h
  rw [← sortItems_eq, ← sortItems_eq]
  exact Json.array.inj h

theorem Same.fields {fs gs : List (String × Json)} (h : Same (.object fs) (.object gs)) :
    (fs.map fun f => (f.1,sortKeys f.2)).Perm (gs.map fun g => (g.1,sortKeys g.2)) := by
  have h : Json.object (sortedBy Prod.fst (sortFields fs)) =
      Json.object (sortedBy Prod.fst (sortFields gs)) := by
    simpa only [Same, sortKeys] using h
  rw [← sortFields_eq, ← sortFields_eq]
  exact ((sortedBy_perm _ _).symm.trans (List.Perm.of_eq (Json.object.inj h))).trans
    (sortedBy_perm _ _)

/-- Equal objects hold equal values under every key that is not repeated. -/
theorem Same.field {fs gs : List (String × Json)} (h : Same (.object fs) (.object gs))
    (hg : (gs.map (·.1)).Nodup) {k : String} {v w : Json} (hv : (k,v) ∈ fs) (hw : (k,w) ∈ gs) :
    Same v w := by
  have hmem : (k,sortKeys v) ∈ gs.map fun g => (g.1,sortKeys g.2) :=
    h.fields.mem_iff.mp (List.mem_map_of_mem (f := fun f => (f.1,sortKeys f.2)) hv)
  obtain ⟨⟨l,x⟩,hx,heq⟩ := List.mem_map.mp hmem
  obtain ⟨rfl,hsort⟩ := Prod.mk.inj heq
  have hsame := List.inj_on_of_nodup_map hg hx hw rfl
  rw [(Prod.mk.inj hsame).2] at hsort
  exact hsort.symm

/-- Two dictionaries with the same keys in the same order are one when they are equal. -/
theorem eq_of_fields {fs gs : List (String × Json)} (hkeys : fs.map (·.1) = gs.map (·.1))
    (hnodup : (fs.map (·.1)).Nodup) (hperm : fs.Perm gs) : fs = gs := by
  induction fs generalizing gs with
  | nil => exact (List.map_eq_nil_iff.mp hkeys.symm).symm
  | cons f fs ih =>
    cases gs with
    | nil => cases hkeys
    | cons g gs =>
      rw [List.map_cons, List.map_cons, List.cons.injEq] at hkeys
      have hin : f ∈ g :: gs := hperm.mem_iff.mp List.mem_cons_self
      have hfg : f = g := by
        rcases List.mem_cons.mp hin with heq | hrest
        · exact heq
        · have hagain : f.1 ∈ fs.map (·.1) := hkeys.2 ▸ List.mem_map_of_mem hrest
          exact absurd hagain (List.nodup_cons.mp hnodup).1
      subst hfg
      rw [ih hkeys.2 (List.nodup_cons.mp hnodup).2 hperm.cons_inv]

/-- Objects that name their fields alike hold the same values under them. -/
theorem Same.values {fs gs : List (String × Json)} (h : Same (.object fs) (.object gs))
    (hkeys : fs.map (·.1) = gs.map (·.1)) (hnodup : (fs.map (·.1)).Nodup) :
    fs.map (fun f => sortKeys f.2) = gs.map fun g => sortKeys g.2 := by
  have hnames : ∀ l : List (String × Json),
      (l.map fun f => (f.1,sortKeys f.2)).map (·.1) = l.map (·.1) := by
    intro l
    rw [List.map_map]
    rfl
  have hfields := eq_of_fields (by rw [hnames, hnames, hkeys]) (by rwa [hnames]) h.fields
  have hvalues := congrArg (List.map (·.2)) hfields
  rwa [List.map_map, List.map_map] at hvalues

end Objects

end Adg.CanonicalJson
