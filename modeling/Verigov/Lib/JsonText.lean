import Verigov.Lib.Unicode

/-!
# JSON as text

What `JSON.stringify` writes for values without numbers, at any indentation, and
a reader of such texts. The reader takes a prefix and hands back what follows,
so that reading what was written composes (`readValue_write`); its fuel bounds
the depth, and the length of the text is always enough.
-/

namespace JsonText

inductive Value
  | null
  | bool (b : Bool)
  | string (t : Text)
  | array (items : List Value)
  | object (fields : List (Text × Value))

-- ---------------------------------------------------------------------------
-- Writing
-- ---------------------------------------------------------------------------

def shorthand (c : Char) : Option Char :=
  if c = '"' then some '"'
  else if c = '\\' then some '\\'
  else if c = '\n' then some 'n'
  else if c = '\r' then some 'r'
  else if c = '\t' then some 't'
  else if c = Char.ofNat 8 then some 'b'
  else if c = Char.ofNat 12 then some 'f'
  else none

def escape (c : Char) : Text :=
  match shorthand c with
  | some x => ['\\', x]
  | none =>
    if c.toNat < 32 then
      ['\\', 'u', '0', '0', Nat.digitChar (c.toNat / 16), Nat.digitChar (c.toNat % 16)]
    else [c]

def quote (t : Text) : Text := '"' :: (t.flatMap escape ++ ['"'])

def newline (gap indent : Text) : Text := if gap = [] then [] else '\n' :: indent

def colon (gap : Text) : Text := if gap = [] then [':'] else [':', ' ']

mutual

/-- `JSON.stringify(value, null, gap)`, at the indentation reached. -/
def write (gap indent : Text) : Value → Text
  | .null => "null".toList
  | .bool true => "true".toList
  | .bool false => "false".toList
  | .string t => quote t
  | .array [] => ['[', ']']
  | .array (v :: vs) =>
    '[' :: (newline gap (indent ++ gap) ++ (write gap (indent ++ gap) v ++
      (writeItems gap (indent ++ gap) vs ++ (newline gap indent ++ [']']))))
  | .object [] => ['{', '}']
  | .object ((name, v) :: fields) =>
    '{' :: (newline gap (indent ++ gap) ++ (quote name ++ (colon gap ++
      (write gap (indent ++ gap) v ++
        (writeFields gap (indent ++ gap) fields ++ (newline gap indent ++ ['}']))))))

def writeItems (gap indent : Text) : List Value → Text
  | [] => []
  | v :: vs => ',' :: (newline gap indent ++ (write gap indent v ++ writeItems gap indent vs))

def writeFields (gap indent : Text) : List (Text × Value) → Text
  | [] => []
  | (name, v) :: fields =>
    ',' :: (newline gap indent ++ (quote name ++ (colon gap ++
      (write gap indent v ++ writeFields gap indent fields))))

end

-- ---------------------------------------------------------------------------
-- Reading
-- ---------------------------------------------------------------------------

def Blank (c : Char) : Prop := c = ' ' ∨ c = '\n' ∨ c = '\r' ∨ c = '\t'

instance (c : Char) : Decidable (Blank c) := inferInstanceAs (Decidable (_ ∨ _))

def skip (t : Text) : Text := t.dropWhile fun c => decide (Blank c)

def hexDigit (c : Char) : Option Nat :=
  if '0' ≤ c ∧ c ≤ '9' then some (c.toNat - 48)
  else if 'a' ≤ c ∧ c ≤ 'f' then some (c.toNat - 87)
  else if 'A' ≤ c ∧ c ≤ 'F' then some (c.toNat - 55)
  else none

def unshorthand (c : Char) : Option Char :=
  if c = '"' ∨ c = '\\' ∨ c = '/' then some c
  else if c = 'n' then some '\n'
  else if c = 'r' then some '\r'
  else if c = 't' then some '\t'
  else if c = 'b' then some (Char.ofNat 8)
  else if c = 'f' then some (Char.ofNat 12)
  else none

/-- The character of four digits; surrogates are not read. -/
def codePoint (a b c d : Char) : Option Char := do
  let n := 4096 * (← hexDigit a) + 256 * (← hexDigit b) + 16 * (← hexDigit c) + (← hexDigit d)
  if n.isValidChar then some (Char.ofNat n) else none

def readString : Text → Option (Text × Text)
  | [] => none
  | '"' :: t => some ([], t)
  | '\\' :: 'u' :: a :: b :: c :: d :: t => do
    let x ← codePoint a b c d
    let (xs, rest) ← readString t
    return (x :: xs, rest)
  | '\\' :: c :: t => do
    let x ← unshorthand c
    let (xs, rest) ← readString t
    return (x :: xs, rest)
  | c :: t =>
    if c.toNat < 32 then none
    else do
      let (xs, rest) ← readString t
      return (c :: xs, rest)

mutual

def readValue : Nat → Text → Option (Value × Text)
  | 0, _ => none
  | n + 1, t =>
    match skip t with
    | 'n' :: 'u' :: 'l' :: 'l' :: t => some (.null, t)
    | 't' :: 'r' :: 'u' :: 'e' :: t => some (.bool true, t)
    | 'f' :: 'a' :: 'l' :: 's' :: 'e' :: t => some (.bool false, t)
    | '"' :: t => do
      let (s, t) ← readString t
      return (.string s, t)
    | '[' :: t =>
      match skip t with
      | ']' :: t => some (.array [], t)
      | t => do
        let (v, t) ← readValue n t
        let (vs, t) ← readItems n t
        return (.array (v :: vs), t)
    | '{' :: t =>
      match skip t with
      | '}' :: t => some (.object [], t)
      | t => do
        let (f, t) ← readField n t
        let (fields, t) ← readFields n t
        return (.object (f :: fields), t)
    | _ => none

def readItems : Nat → Text → Option (List Value × Text)
  | 0, _ => none
  | n + 1, t =>
    match skip t with
    | ']' :: t => some ([], t)
    | ',' :: t => do
      let (v, t) ← readValue n t
      let (vs, t) ← readItems n t
      return (v :: vs, t)
    | _ => none

def readField : Nat → Text → Option ((Text × Value) × Text)
  | 0, _ => none
  | n + 1, t =>
    match skip t with
    | '"' :: t => do
      let (name, t) ← readString t
      match skip t with
      | ':' :: t => do
        let (v, t) ← readValue n t
        return ((name, v), t)
      | _ => none
    | _ => none

def readFields : Nat → Text → Option (List (Text × Value) × Text)
  | 0, _ => none
  | n + 1, t =>
    match skip t with
    | '}' :: t => some ([], t)
    | ',' :: t => do
      let (f, t) ← readField n t
      let (fields, t) ← readFields n t
      return (f :: fields, t)
    | _ => none

end

/-- A whole text is one value with blanks around it. -/
def read (t : Text) : Option Value := do
  let (v, rest) ← readValue (t.length + 1) t
  if skip rest = [] then some v else none

-- ---------------------------------------------------------------------------
-- Strings
-- ---------------------------------------------------------------------------

theorem unshorthand_of_shorthand {c x : Char} (h : shorthand c = some x) :
    unshorthand x = some c ∧ x ≠ 'u' := by
  unfold shorthand at h
  split_ifs at h
  all_goals
    obtain rfl := Option.some.inj h
    subst_vars
    decide

theorem hexDigit_digitChar {n : Nat} (h : n < 16) : hexDigit n.digitChar = some n := by
  revert n
  decide

theorem codePoint_of_lt {c : Char} (h : c.toNat < 32) :
    codePoint '0' '0' (Nat.digitChar (c.toNat / 16)) (Nat.digitChar (c.toNat % 16)) = some c := by
  have hhigh := hexDigit_digitChar (n := c.toNat / 16) (by omega)
  have hlow := hexDigit_digitChar (n := c.toNat % 16) (by omega)
  have hzero : hexDigit '0' = some 0 := by decide
  have hsum : 4096 * 0 + 256 * 0 + 16 * (c.toNat / 16) + c.toNat % 16 = c.toNat := by omega
  unfold codePoint
  simp only [hhigh, hlow, hzero, Option.bind_eq_bind, Option.bind_some, hsum]
  rw [if_pos (show c.toNat.isValidChar from c.valid), Char.ofNat_toNat]

theorem readString_plain {c : Char} (hc : ¬ c.toNat < 32) (hq : c ≠ '"') (hb : c ≠ '\\')
    (t : Text) : readString (c :: t) = (readString t).map fun p => (c :: p.1, p.2) := by
  rw [readString.eq_def]
  split <;> simp_all [Option.map_eq_bind]

theorem readString_shorthand {c x : Char} (h : unshorthand x = some c) (hu : x ≠ 'u') (t : Text) :
    readString ('\\' :: x :: t) = (readString t).map fun p => (c :: p.1, p.2) := by
  have hcons : readString ('\\' :: x :: t) = do
      let x ← unshorthand x
      let (xs, rest) ← readString t
      return (x :: xs, rest) := by
    rw [readString.eq_def]
    split
    · rename_i heq
      cases heq
    · rename_i heq
      cases heq
    · rename_i heq
      simp only [List.cons.injEq] at heq
      exact absurd heq.2.1 hu
    · rename_i heq
      simp only [List.cons.injEq, true_and] at heq
      rw [heq.1, heq.2]
    · rename_i hno heq
      simp only [List.cons.injEq] at heq
      exact absurd heq.2.symm (hno _ _ heq.1.symm)
  rw [hcons, h]
  simp [Option.map_eq_bind]

theorem readString_escape (c : Char) (t : Text) :
    readString (escape c ++ t) = (readString t).map fun p => (c :: p.1, p.2) := by
  unfold escape
  cases hx : shorthand c with
  | some x =>
    obtain ⟨hun, hu⟩ := unshorthand_of_shorthand hx
    exact readString_shorthand hun hu t
  | none =>
    dsimp only
    split
    · rename_i hlt
      simp [readString, codePoint_of_lt hlt, Option.map_eq_bind]
    · rename_i hlt
      have hq : c ≠ '"' := by
        rintro rfl
        cases hx
      have hb : c ≠ '\\' := by
        rintro rfl
        cases hx
      exact readString_plain hlt hq hb t

theorem readString_quoted (t rest : Text) :
    readString (t.flatMap escape ++ '"' :: rest) = some (t, rest) := by
  induction t with
  | nil => rfl
  | cons c t ih =>
    rw [List.flatMap_cons, List.append_assoc, readString_escape, ih]
    rfl

-- ---------------------------------------------------------------------------
-- Blanks
-- ---------------------------------------------------------------------------

def Blanks (t : Text) : Prop := ∀ c ∈ t, Blank c

instance (t : Text) : Decidable (Blanks t) := t.decidableBAll Blank

variable {gap indent b t rest : Text} {c : Char} {v : Value} {n : Nat}

theorem Blanks.append (hb : Blanks b) (ht : Blanks t) : Blanks (b ++ t) := by
  intro c hc
  rcases List.mem_append.mp hc with h | h
  · exact hb c h
  · exact ht c h

theorem Blanks.newline (hindent : Blanks indent) (gap : Text) : Blanks (newline gap indent) := by
  unfold JsonText.newline
  split
  · intro c hc
    cases hc
  · intro c hc
    rcases List.mem_cons.mp hc with rfl | hc
    · exact .inr (.inl rfl)
    · exact hindent c hc

theorem skip_append (hb : Blanks b) (t : Text) : skip (b ++ t) = skip t := by
  induction b with
  | nil => rfl
  | cons c b ih =>
    have hc : Blank c := hb c List.mem_cons_self
    simp only [skip, List.cons_append, List.dropWhile_cons, hc, decide_true, if_true]
    exact ih fun x hx => hb x (List.mem_cons_of_mem _ hx)

theorem skip_cons (hc : ¬ Blank c) (t : Text) : skip (c :: t) = c :: t := by
  simp [skip, hc]

theorem readValue_append (hb : Blanks b) (n : Nat) (t : Text) :
    readValue n (b ++ t) = readValue n t := by
  cases n with
  | zero => rfl
  | succ n =>
    rw [readValue, skip_append hb, readValue]

theorem write_head (gap indent : Text) (v : Value) :
    ∃ c t, write gap indent v = c :: t ∧ ¬ Blank c ∧ c ≠ ']' := by
  rcases v with _ | (_ | _) | t | (_ | ⟨v, vs⟩) | (_ | ⟨⟨name, v⟩, fields⟩)
  all_goals
    refine ⟨_, _, rfl, ?_, ?_⟩
    · decide
    · decide

-- ---------------------------------------------------------------------------
-- Reading what was written
-- ---------------------------------------------------------------------------

theorem readValue_bracket (hb : Blanks b) (hc : ¬ Blank c) (hclose : c ≠ ']') (n : Nat)
    (t : Text) : readValue (n + 1) ('[' :: (b ++ c :: t)) = do
      let (v, t) ← readValue n (c :: t)
      let (vs, t) ← readItems n t
      return (.array (v :: vs), t) := by
  have hopen : ¬ Blank '[' := by decide
  simp only [readValue, skip_cons hopen, skip_append hb, skip_cons hc]
  split
  · rename_i heq
    exact absurd (List.cons.inj heq).1 hclose
  · rfl

theorem readValue_brace (hb : Blanks b) (n : Nat) (t : Text) :
    readValue (n + 1) ('{' :: (b ++ (quote t ++ rest))) = do
      let (f, t) ← readField n (quote t ++ rest)
      let (fields, t) ← readFields n t
      return (.object (f :: fields), t) := by
  have hopen : ¬ Blank '{' := by decide
  have hquote : ¬ Blank '"' := by decide
  simp only [readValue, skip_cons hopen, skip_append hb, quote, List.cons_append, skip_cons hquote]
  rfl

theorem readField_member (hb : Blanks b) (name gap : Text)
    (h : readValue n t = some (v, rest)) :
    readField (n + 1) (b ++ (quote name ++ (colon gap ++ t))) = some ((name, v), rest) := by
  have hcolon : ∃ b', Blanks b' ∧ colon gap = ':' :: b' := by
    unfold colon
    split
    · exact ⟨[], by simp [Blanks], rfl⟩
    · exact ⟨[' '], by simp [Blanks, Blank], rfl⟩
  obtain ⟨b', hb', hcolon⟩ := hcolon
  have hquote : ¬ Blank '"' := by decide
  have hsep : ¬ Blank ':' := by decide
  rw [readField, skip_append hb, hcolon]
  simp only [quote, List.cons_append, List.append_assoc, List.nil_append, skip_cons hquote,
    readString_quoted, Option.bind_eq_bind, Option.bind_some, skip_cons hsep,
    readValue_append hb', h]
  rfl

mutual

/-- A written value is read back, and what follows it is left. -/
theorem readValue_write (hgap : Blanks gap) (v : Value) {indent : Text} (hindent : Blanks indent)
    {n : Nat} (hn : (write gap indent v).length < n) (rest : Text) :
    readValue n (write gap indent v ++ rest) = some (v, rest) := by
  obtain ⟨n, rfl⟩ := Nat.exists_eq_succ_of_ne_zero (Nat.ne_zero_of_lt hn)
  have hinner : Blanks (indent ++ gap) := hindent.append hgap
  match v with
  | .null => rfl
  | .bool true => rfl
  | .bool false => rfl
  | .string t =>
    have hquote : ¬ Blank '"' := by decide
    simp only [write, quote, List.cons_append, List.append_assoc, List.nil_append, readValue,
      skip_cons hquote, readString_quoted]
    rfl
  | .array [] => rfl
  | .array (v :: vs) =>
    simp only [write, List.length_cons, List.length_append] at hn
    have hv := readValue_write hgap v hinner (n := n) (by omega)
    have hvs := readItems_write hgap vs hinner (n := n) (by omega) (hindent.newline gap) rest
    obtain ⟨c, t, hc, hblank, hclose⟩ := write_head gap (indent ++ gap) v
    simp only [write, hc, List.cons_append, List.append_assoc, List.nil_append] at hv ⊢
    rw [readValue_bracket (hinner.newline gap) hblank hclose, hv]
    simp only [Option.bind_eq_bind, Option.bind_some, hvs]
    rfl
  | .object [] => rfl
  | .object ((name, v) :: fields) =>
    simp only [write, quote, List.length_cons, List.length_append] at hn
    obtain ⟨n, rfl⟩ := Nat.exists_eq_succ_of_ne_zero (n := n) (by omega)
    have hv := readValue_write hgap v hinner (n := n) (by omega)
    have hfields := readFields_write hgap fields hinner (n := n + 1) (by omega)
      (hindent.newline gap) rest
    simp only [write, List.cons_append, List.append_assoc, List.nil_append]
    rw [readValue_brace (hinner.newline gap), ← List.nil_append (quote name ++ _),
      readField_member (by simp [Blanks]) name gap (hv _)]
    simp only [Option.bind_eq_bind, Option.bind_some, hfields]
    rfl

theorem readItems_write (hgap : Blanks gap) (vs : List Value) {indent : Text}
    (hindent : Blanks indent) {n : Nat} (hn : (writeItems gap indent vs).length < n) {b : Text}
    (hb : Blanks b) (rest : Text) :
    readItems n (writeItems gap indent vs ++ (b ++ ']' :: rest)) = some (vs, rest) := by
  obtain ⟨n, rfl⟩ := Nat.exists_eq_succ_of_ne_zero (Nat.ne_zero_of_lt hn)
  match vs with
  | [] =>
    have hclose : ¬ Blank ']' := by decide
    simp only [writeItems, List.nil_append, readItems, skip_append hb, skip_cons hclose]
  | v :: vs =>
    simp only [writeItems, List.length_cons, List.length_append] at hn
    have hv := readValue_write hgap v hindent (n := n) (by omega)
    have hvs := readItems_write hgap vs hindent (n := n) (by omega) hb rest
    have hcomma : ¬ Blank ',' := by decide
    simp only [writeItems, List.cons_append, List.append_assoc, readItems, skip_cons hcomma,
      readValue_append (hindent.newline gap), hv, hvs, Option.bind_eq_bind, Option.bind_some]
    rfl

theorem readFields_write (hgap : Blanks gap) (fields : List (Text × Value)) {indent : Text}
    (hindent : Blanks indent) {n : Nat} (hn : (writeFields gap indent fields).length < n)
    {b : Text} (hb : Blanks b) (rest : Text) :
    readFields n (writeFields gap indent fields ++ (b ++ '}' :: rest)) = some (fields, rest) := by
  obtain ⟨n, rfl⟩ := Nat.exists_eq_succ_of_ne_zero (Nat.ne_zero_of_lt hn)
  match fields with
  | [] =>
    have hclose : ¬ Blank '}' := by decide
    simp only [writeFields, List.nil_append, readFields, skip_append hb, skip_cons hclose]
  | (name, v) :: fields =>
    simp only [writeFields, quote, List.length_cons, List.length_append] at hn
    obtain ⟨n, rfl⟩ := Nat.exists_eq_succ_of_ne_zero (n := n) (by omega)
    have hv := readValue_write hgap v hindent (n := n) (by omega)
    have hfields := readFields_write hgap fields hindent (n := n + 1) (by omega) hb rest
    have hcomma : ¬ Blank ',' := by decide
    simp only [writeFields, List.cons_append, List.append_assoc]
    rw [readFields, skip_cons hcomma]
    simp only [readField_member (hindent.newline gap) name gap (hv _), Option.bind_eq_bind,
      Option.bind_some, hfields]
    rfl

end

/-- What is written, with blanks after it, reads as the value. -/
theorem read_write (hgap : Blanks gap) (v : Value) (hb : Blanks b) :
    read (write gap [] v ++ b) = some v := by
  have hlen : (write gap [] v).length < (write gap [] v ++ b).length + 1 := by
    rw [List.length_append]
    omega
  have hskip : skip b = [] := by rw [← List.append_nil b, skip_append hb]; rfl
  unfold read
  rw [readValue_write hgap v (by simp [Blanks]) hlen]
  simp only [Option.bind_eq_bind, Option.bind_some, hskip, if_true]

end JsonText
