import LuaChunk.Lexer.Scanner

/-!
Tokens read one at a time with any amount of lookahead. The stream holds the tokens ahead and how
many of them have been looked at; the errors of a token become pending when it is first looked
at, and its comments count from then on. The end of input is never used up.
-/

set_option autoImplicit false

namespace LuaChunk

/-- What a token ahead says about a pattern. -/
inductive Verdict where
  | proceed
  | accept
  | reject
  deriving DecidableEq, Repr

structure TokenStream where
  dialect : Dialect
  /-- The scanner after the last token taken. -/
  taken : Scanner
  /-- The tokens ahead, the end of input excepted. -/
  ahead : List Scanned
  final : Scanned
  /-- How many of the tokens ahead have been looked at; the end of input counts as one. -/
  seen : Nat := 0
  pending : List LexicalError := []
  /-- The span of the last token taken. -/
  now : Span := .synthetic
  /-- The span of the token taken before the last. -/
  previous : Span := .synthetic
  deriving Repr, Inhabited

namespace TokenStream

/-- Lays out the tokens that follow a scanner. -/
def layOut (s : TokenStream) (scanner : Scanner) : TokenStream :=
  let (ahead, final) := scanner.run s.dialect
  { s with taken := scanner, ahead := ahead, final := final }

def ofBytes (d : Dialect) (bytes : List UInt8) : TokenStream :=
  let scanner := Scanner.ofBytes bytes
  let (ahead, final) := scanner.run d
  { dialect := d, taken := scanner, ahead := ahead, final := final }

/-- Skips a `#` line, unless a token has been looked at since the last one taken. -/
def skipShebang (s : TokenStream) : TokenStream :=
  if s.seen = 0 ∧ s.taken.cursor.code? 0 = some (Byte.of '#') then s.layOut s.taken.skipShebang
  else s

/-- The token some places ahead. -/
def upcoming (s : TokenStream) (n : Nat) : Scanned := s.ahead[n]?.getD s.final

/-- The errors of the tokens after the first `skip` of a list that the end of input closes, up to
`count` of them. -/
def errorsOf (final : Scanned) : List Scanned → Nat → Nat → List LexicalError
  | _, _, 0 => []
  | [], 0, _ + 1 => final.errors
  | [], _ + 1, _ + 1 => []
  | _ :: rest, skip + 1, count + 1 => errorsOf final rest skip (count + 1)
  | r :: rest, 0, count + 1 => r.errors ++ errorsOf final rest 0 count

/-- Looks at the next tokens, as far as they have not been looked at. -/
def look (s : TokenStream) (count : Nat) : TokenStream :=
  if s.seen < count then
    { s with
      pending := s.pending ++ errorsOf s.final s.ahead s.seen (count - s.seen)
      seen := count }
  else s

@[simp]
theorem ahead_look (s : TokenStream) (count : Nat) : (s.look count).ahead = s.ahead := by
  unfold look
  split <;> rfl

/-- Looking further changes no token. -/
@[simp]
theorem upcoming_look (s : TokenStream) (count n : Nat) :
    (s.look count).upcoming n = s.upcoming n := by
  unfold look
  split <;> rfl

theorem seen_look (s : TokenStream) (count : Nat) : (s.look count).seen = max s.seen count := by
  unfold look
  split
  next more => exact (Nat.max_eq_right (Nat.le_of_lt more)).symm
  next enough => exact (Nat.max_eq_left (Nat.le_of_not_lt enough)).symm

/-- Takes the next token. -/
def next (s : TokenStream) : Token × TokenStream :=
  let s := s.look 1
  match s.ahead with
  | [] => (s.final.token, { s with previous := s.now, now := s.final.token.span })
  | r :: rest =>
    (r.token,
      { s with
        ahead := rest, seen := s.seen - 1, taken := r.after
        previous := s.now, now := r.token.span })

/-- The token some places ahead, looked at. -/
def peek (s : TokenStream) (n : Nat) : Token × TokenStream :=
  ((s.upcoming n).token, s.look (n + 1))

/-- The next two tokens are of these kinds; the second is looked at only after the first fits. -/
def peekPair (s : TokenStream) (first second : TokenKind) : Bool × TokenStream :=
  if (s.upcoming 0).token.kind = first then
    ((s.upcoming 1).token.kind == second, s.look 2)
  else (false, s.look 1)

/-- Asks about each token in turn until one decides; the end of input rejects. Also tells how many
tokens have been looked at, counted on from a number. -/
def judge (ask : TokenKind → Verdict) : List Scanned → Nat → Bool × Nat
  | [], count => (false, count + 1)
  | r :: rest, count =>
    match ask r.token.kind with
    | .proceed => judge ask rest (count + 1)
    | .accept => (true, count + 1)
    | .reject => (false, count + 1)

/-- Matches a pattern of any length that begins with a token of the given kind. -/
def peekWhile (s : TokenStream) (start : TokenKind) (ask : TokenKind → Verdict) :
    Bool × TokenStream :=
  if (s.upcoming 0).token.kind = start then
    let (accepted, count) := judge ask (s.ahead.drop 1) 1
    (accepted, s.look count)
  else (false, s.look 1)

/-- The comments met so far. -/
def comments (s : TokenStream) : CommentLog :=
  match s.seen with
  | 0 => s.taken.comments
  | n + 1 => (s.upcoming n).after.comments

/-- Takes all pending errors. -/
def takeErrors (s : TokenStream) : List LexicalError × TokenStream :=
  (s.pending, { s with pending := [] })

/-- Narrows down, by halving, the place in a list of a given size where a property of its indices
ends. -/
def bisect (holds : Nat → Bool) : Nat → Nat → Nat → Nat
  | 0, base, _ => base
  | clock + 1, base, size =>
    if size ≤ 1 then base
    else
      let half := size / 2
      bisect holds clock (if holds (base + half) then base + half else base) (size - half)

/-- The number of indices, from the first on, with a property that holds of none after them. -/
def partitionPoint (holds : Nat → Bool) (size : Nat) : Nat :=
  if size = 0 then 0
  else
    let base := bisect holds size 0 size
    if holds base then base + 1 else base

/-- Takes the pending errors that start before a position and leaves those of tokens further
ahead. The place to cut is found by halving. -/
def takeErrorsBefore (s : TokenStream) (p : Position) : List LexicalError × TokenStream :=
  let holds i := s.pending[i]?.any fun e => decide (e.span.start < p)
  let cut := partitionPoint holds s.pending.length
  (s.pending.take cut, { s with pending := s.pending.drop cut })

end TokenStream

end LuaChunk
