import Mathlib.Data.List.Basic

namespace PerfRaft.Lib

/-- A self-delimiting code over the symbols `β`: decoding takes exactly one value off
the front, whatever stands behind it. -/
structure Code (β α : Type) where
  encode : α → List β
  decode : List β → Option (α × List β)
  decode_encode : ∀ a rest, decode (encode a ++ rest) = some (a, rest)

namespace Code

variable {α β γ : Type}

/-- One symbol stands for itself. -/
def symbol : Code β β where
  encode b := [b]
  decode
    | [] => none
    | b :: rest => some (b, rest)
  decode_encode _ _ := rfl

/-- A value coded by another one that determines it. -/
def map (c : Code β α) (f : α → γ) (g : γ → α) (h : ∀ x, f (g x) = x) : Code β γ where
  encode x := c.encode (g x)
  decode bs := (c.decode bs).map (fun p => (f p.1, p.2))
  decode_encode x rest := by simp [c.decode_encode, h]

def prod (c : Code β α) (d : Code β γ) : Code β (α × γ) where
  encode p := c.encode p.1 ++ d.encode p.2
  decode bs := (c.decode bs).bind (fun p => (d.decode p.2).map (fun q => ((p.1, q.1), q.2)))
  decode_encode p rest := by simp [c.decode_encode, d.decode_encode]

/-- The tag says which of the two codes follows. -/
def sum (tag : Code β Bool) (c : Code β α) (d : Code β γ) : Code β (α ⊕ γ) where
  encode
    | .inl a => tag.encode true ++ c.encode a
    | .inr x => tag.encode false ++ d.encode x
  decode bs := (tag.decode bs).bind (fun p =>
    if p.1 then (c.decode p.2).map (fun q => (.inl q.1, q.2))
    else (d.decode p.2).map (fun q => (.inr q.1, q.2)))
  decode_encode v rest := by
    cases v with
    | inl a => simp [tag.decode_encode, c.decode_encode]
    | inr x => simp [tag.decode_encode, d.decode_encode]

section Unary

variable [DecidableEq β]

/-- The number of marks before the first other symbol. -/
def decodeUnary (mark : β) : List β → Option (Nat × List β)
  | [] => none
  | b :: rest => if b = mark then (decodeUnary mark rest).map (fun p => (p.1 + 1, p.2)) else some (0, rest)

theorem decodeUnary_replicate {mark stop : β} (h : stop ≠ mark) (n : Nat) (rest : List β) :
    decodeUnary mark (List.replicate n mark ++ stop :: rest) = some (n, rest) := by
  induction n with
  | zero => simp [decodeUnary, h]
  | succ n ih => simp [List.replicate_succ, decodeUnary, ih]

def unary (mark stop : β) (h : stop ≠ mark) : Code β Nat where
  encode n := List.replicate n mark ++ [stop]
  decode := decodeUnary mark
  decode_encode n rest := by simp [decodeUnary_replicate h]

end Unary

def decodeMany (c : Code β α) : Nat → List β → Option (List α × List β)
  | 0, bs => some ([], bs)
  | n + 1, bs => (c.decode bs).bind (fun p => (decodeMany c n p.2).map (fun q => (p.1 :: q.1, q.2)))

theorem decodeMany_flatMap (c : Code β α) (l : List α) (rest : List β) :
    decodeMany c l.length (l.flatMap c.encode ++ rest) = some (l, rest) := by
  induction l with
  | nil => rfl
  | cons a l ih => simp [decodeMany, c.decode_encode, ih]

/-- The length first, then the elements. -/
def list (count : Code β Nat) (c : Code β α) : Code β (List α) where
  encode l := count.encode l.length ++ l.flatMap c.encode
  decode bs := (count.decode bs).bind (fun p => decodeMany c p.1 p.2)
  decode_encode l rest := by simp [count.decode_encode, decodeMany_flatMap]

end Code

end PerfRaft.Lib
