import NodeScript.Json.Record

/-!
# Values that are written are read back

The tokens of a value lead the reader back to it, whatever frames it is inside
(`Progress.run?_tokens`). So does its text, if the value is made of texts, truth values and nulls
only (`Value.parse?_render`): a character that is escaped denotes itself again, whichever it is, and
so a string denotes the same text, and what is written for a token is taken off the text as this
token, whatever comes after.
-/

namespace NodeScript.Json

/-! ### Strings -/

namespace Text

/-- The four digits that a control character is written with. -/
theorem hexValue4?_hexDigit : ∀ n < 0x20,
    hexValue4? '0' '0' (hexDigit (n / 16)) (hexDigit (n % 16)) = some n := by decide

/-- A character that is written is read, whatever comes after. -/
theorem scan?_escape (done : List Nat) (c : Char) (rest : List Char) :
    scan? done (escape c ++ rest) = scan? (c.toNat :: done) rest := by
  unfold escape
  split
  · subst c
    rfl
  split
  · subst c
    rfl
  split
  · rename_i control
    simp [scan?, hexValue4?_hexDigit _ control]
  · rename_i backslash control
    simp [scan?, backslash, control]

theorem scan?_chars (done : List Nat) (cs rest : List Char) :
    scan? done (cs.flatMap escape ++ '"' :: rest) =
      some (done.reverse ++ cs.map Char.toNat, rest) := by
  induction cs generalizing done with
  | nil => simp [scan?]
  | cons c cs ih => simp [List.append_assoc, scan?_escape, ih]

/-- No character is half of a surrogate pair. -/
theorem not_surrogate (c : Char) : isHigh c.toNat = false ∧ isLow c.toNat = false := by
  have valid : c.toNat < 0xD800 ∨ 0xDFFF < c.toNat ∧ c.toNat < 0x110000 := c.valid
  simp only [isHigh, isLow, Bool.and_eq_false_iff, decide_eq_false_iff_not]
  omega

/-- The code points of characters denote these characters. -/
theorem joinPairs?_map_toNat (cs : List Char) : joinPairs? (cs.map Char.toNat) = some cs := by
  induction cs with
  | nil => rfl
  | cons c cs ih =>
    obtain ⟨high, low⟩ := not_surrogate c
    cases cs with
    | nil => simp [joinPairs?, high, low]
    | cons d cs =>
      rw [List.map_cons] at ih
      simp [joinPairs?, high, low, ih]

/-- **What is written between quotes is read as the same text.** -/
theorem ofCodePoints_map_toNat (s : String) : ofCodePoints (s.toList.map Char.toNat) = some s := by
  simp [ofCodePoints, joinPairs?_map_toNat]

end Text

/-! ### Tokens -/

namespace Token

/-- The token is no number, and if it is a string then it denotes a text. -/
def IsPlain : Token → Prop
  | number _ => False
  | text t => t.isSome
  | _ => True

/-- **A token that is written is read**, whatever comes after. -/
theorem scan?_chars {t : Token} (plain : t.IsPlain) (rest : List Char) :
    scan? (t.chars ++ rest) = some (t, rest) := by
  cases t with
  | number n => exact plain.elim
  | text t =>
    obtain ⟨s, rfl⟩ := Option.isSome_iff_exists.mp plain
    simp [chars, Text.chars, scan?, Text.scan?_chars, Text.ofCodePoints_map_toNat]
  | bool b => cases b <;> rfl
  | _ => rfl

/-- A token begins with a character that is no space. -/
theorem exists_chars {t : Token} (plain : t.IsPlain) :
    ∃ c cs, t.chars = c :: cs ∧ isSpace c = false := by
  cases t with
  | number n => exact plain.elim
  | text t =>
    obtain ⟨s, rfl⟩ := Option.isSome_iff_exists.mp plain
    exact ⟨_, _, rfl, rfl⟩
  | bool b => cases b <;> exact ⟨_, _, rfl, rfl⟩
  | _ => exact ⟨_, _, rfl, rfl⟩

theorem scanUpTo?_chars {ts : List Token} (plain : ∀ t ∈ ts, t.IsPlain) (done : List Token)
    {n : Nat} (enough : (ts.flatMap chars).length ≤ n) :
    scanUpTo? done n (ts.flatMap chars) = some (done.reverse ++ ts) := by
  induction ts generalizing done n with
  | nil => cases n <;> simp [scanUpTo?]
  | cons t ts ih =>
    obtain ⟨c, cs, hchars, space⟩ := exists_chars (plain t (.head _))
    have read := scan?_chars (plain t (.head _)) (ts.flatMap chars)
    rw [hchars, List.cons_append] at read
    rw [List.flatMap_cons, hchars, List.cons_append] at enough ⊢
    cases n with
    | zero => simp at enough
    | succ n =>
      have left : (ts.flatMap chars).length ≤ n := by
        simp only [List.length_cons, List.length_append] at enough
        omega
      simp [scanUpTo?, space, read, ih (fun u hu => plain u (.tail _ hu)) (t :: done) left]

/-- **Tokens that are written are read.** -/
theorem scanAll?_chars {ts : List Token} (plain : ∀ t ∈ ts, t.IsPlain) :
    scanAll? (ts.flatMap chars) = some ts :=
  scanUpTo?_chars plain [] (Nat.le_refl _)

end Token

/-! ### Values -/

namespace Value

/-- The value holds no number, and its strings denote texts. -/
inductive IsPlain : Value → Prop
  | null : IsPlain null
  | bool (b : Bool) : IsPlain (bool b)
  | text (s : String) : IsPlain (text (some s))
  | array {items : List Value} (h : ∀ v ∈ items, IsPlain v) : IsPlain (array items)
  | object {members : List (Text × Value)} (names : ∀ m ∈ members, m.1.isSome)
    (values : ∀ m ∈ members, IsPlain m.2) : IsPlain (object members)

theorem isPlain_itemTokens {items : List Value} (h : ∀ v ∈ items, ∀ t ∈ v.tokens, t.IsPlain) :
    ∀ t ∈ itemTokens items, t.IsPlain := by
  induction items with
  | nil => simp [itemTokens, Token.IsPlain]
  | cons v items ih =>
    rw [List.forall_mem_cons] at h
    intro t ht
    simp only [itemTokens, List.mem_cons, List.mem_append] at ht
    rcases ht with rfl | ht | ht
    · trivial
    · exact h.1 t ht
    · exact ih h.2 t ht

theorem isPlain_memberTokens {members : List (Text × Value)} (names : ∀ m ∈ members, m.1.isSome)
    (h : ∀ m ∈ members, ∀ t ∈ m.2.tokens, t.IsPlain) :
    ∀ t ∈ memberTokens members, t.IsPlain := by
  induction members with
  | nil => simp [memberTokens, Token.IsPlain]
  | cons m members ih =>
    rw [List.forall_mem_cons] at h names
    intro t ht
    simp only [memberTokens, List.mem_cons, List.mem_append] at ht
    rcases ht with rfl | rfl | rfl | ht | ht
    · trivial
    · exact names.1
    · trivial
    · exact h.1 t ht
    · exact ih names.2 h.2 t ht

/-- The first token of an array, and those that come where it goes on. -/
theorem mem_tokens_array {items : List Value} {t : Token} (ht : t ∈ (array items).tokens) :
    t = .openArray ∨ t ∈ itemTokens items := by
  cases items with
  | nil => simpa [tokens, itemTokens] using ht
  | cons v items =>
    rw [tokens, List.mem_cons] at ht
    exact ht.imp_right (List.mem_cons_of_mem _)

/-- The first token of an object, and those that come where it goes on. -/
theorem mem_tokens_object {members : List (Text × Value)} {t : Token}
    (ht : t ∈ (object members).tokens) : t = .openObject ∨ t ∈ memberTokens members := by
  cases members with
  | nil => simpa [tokens, memberTokens] using ht
  | cons m members =>
    rw [tokens, List.mem_cons] at ht
    exact ht.imp_right (List.mem_cons_of_mem _)

/-- The tokens of a value without numbers are no numbers. -/
theorem IsPlain.tokens {v : Value} (h : v.IsPlain) : ∀ t ∈ v.tokens, t.IsPlain := by
  induction h with
  | null => simp [Value.tokens, Token.IsPlain]
  | bool b => simp [Value.tokens, Token.IsPlain]
  | text s => simp [Value.tokens, Token.IsPlain]
  | array h ih =>
    intro t ht
    rcases mem_tokens_array ht with rfl | ht
    · trivial
    · exact isPlain_itemTokens ih t ht
  | object names values ih =>
    intro t ht
    rcases mem_tokens_object ht with rfl | ht
    · trivial
    · exact isPlain_memberTokens names ih t ht

end Value

namespace Value.Progress

variable {frames : List Frame} {rest : List Token}

/-- A value does not begin with the token that ends an array. -/
theorem run?_firstItem (v : Value) : run? (firstItem frames) (v.tokens ++ rest) =
    run? (value (.array [] :: frames)) (v.tokens ++ rest) := by
  cases v with
  | array items => cases items <;> rfl
  | object members => cases members <;> rfl
  | _ => rfl

mutual

/-- **The tokens of a value are read as the value**, inside whatever frames. -/
theorem run?_tokens (v : Value) (frames : List Frame) (rest : List Token) :
    run? (value frames) (v.tokens ++ rest) = run? (ended v frames) rest := by
  match v with
  | .null => rfl
  | .bool b => rfl
  | .number n => rfl
  | .text t => rfl
  | .array [] => rfl
  | .array (v :: vs) =>
    calc run? (value frames) ((Value.array (v :: vs)).tokens ++ rest)
        = run? (firstItem frames) (v.tokens ++ (itemTokens vs ++ rest)) := by
          rw [tokens, List.cons_append, List.append_assoc]; rfl
      _ = run? (ended v (.array [] :: frames)) (itemTokens vs ++ rest) := by
          rw [run?_firstItem, run?_tokens]
      _ = run? (ended (.array (v :: vs)) frames) rest := run?_itemTokens vs v [] frames rest
  | .object [] => rfl
  | .object ((k, v) :: ms) =>
    calc run? (value frames) ((Value.object ((k, v) :: ms)).tokens ++ rest)
        = run? (value (.member [] k :: frames)) (v.tokens ++ (memberTokens ms ++ rest)) := by
          simp only [tokens, List.cons_append, List.append_assoc]; rfl
      _ = run? (ended v (.member [] k :: frames)) (memberTokens ms ++ rest) := run?_tokens ..
      _ = run? (ended (.object ((k, v) :: ms)) frames) rest :=
          run?_memberTokens ms k v [] frames rest

/-- The items of an array are read after those that were read before. -/
theorem run?_itemTokens (vs : List Value) (v : Value) (done : List Value) (frames : List Frame)
    (rest : List Token) : run? (ended v (.array done :: frames)) (itemTokens vs ++ rest) =
      run? (ended (.array (done.reverse ++ v :: vs)) frames) rest := by
  match vs with
  | [] => simp [itemTokens, run?, step?]
  | w :: ws =>
    calc run? (ended v (.array done :: frames)) (itemTokens (w :: ws) ++ rest)
        = run? (value (.array (v :: done) :: frames)) (w.tokens ++ (itemTokens ws ++ rest)) := by
          rw [itemTokens, List.cons_append, List.append_assoc]; rfl
      _ = run? (ended w (.array (v :: done) :: frames)) (itemTokens ws ++ rest) := run?_tokens ..
      _ = run? (ended (.array ((v :: done).reverse ++ w :: ws)) frames) rest :=
          run?_itemTokens ws w (v :: done) frames rest
      _ = run? (ended (.array (done.reverse ++ v :: w :: ws)) frames) rest := by simp

/-- The members of an object are read after those that were read before. -/
theorem run?_memberTokens (ms : List (Text × Value)) (k : Text) (v : Value)
    (done : List (Text × Value)) (frames : List Frame) (rest : List Token) :
    run? (ended v (.member done k :: frames)) (memberTokens ms ++ rest) =
      run? (ended (.object (done.reverse ++ (k, v) :: ms)) frames) rest := by
  match ms with
  | [] => simp [memberTokens, run?, step?]
  | (j, w) :: ms =>
    calc run? (ended v (.member done k :: frames)) (memberTokens ((j, w) :: ms) ++ rest)
        = run? (value (.member ((k, v) :: done) j :: frames))
            (w.tokens ++ (memberTokens ms ++ rest)) := by
          simp only [memberTokens, List.cons_append, List.append_assoc]; rfl
      _ = run? (ended w (.member ((k, v) :: done) j :: frames)) (memberTokens ms ++ rest) :=
          run?_tokens ..
      _ = run? (ended (.object (((k, v) :: done).reverse ++ (j, w) :: ms)) frames) rest :=
          run?_memberTokens ms j w ((k, v) :: done) frames rest
      _ = run? (ended (.object (done.reverse ++ (k, v) :: (j, w) :: ms)) frames) rest := by simp

end

end Value.Progress

namespace Value

/-- The tokens of a value denote it. -/
theorem ofTokens?_tokens (v : Value) : ofTokens? v.tokens = some v := by
  have read := Progress.run?_tokens v [] []
  rwa [List.append_nil] at read

/-- **A value without numbers whose strings denote texts is read back from its text.** -/
theorem IsPlain.parse?_render {v : Value} (h : v.IsPlain) : parse? v.render = some v := by
  simp [parse?, render, Token.scanAll?_chars h.tokens, ofTokens?_tokens]

end Value

end NodeScript.Json
