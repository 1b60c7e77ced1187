import Netlist.Token

/-!
# Token streams

A `TokenStream` is the unread rest of a source: its lexemes, the position of the first of them, and
the name table that words are interned in as they are read. Tokens are read in two ways: `next`
passes over white space and comments, `nextRaw` answers them as one token. They are `next_token` and
`next_raw_token`.

## Results

* `length_pending_nextRaw`, `length_pending_next`: reading a token uses up a lexeme.
-/

namespace Netlist

/-- The unread rest of a source. -/
structure TokenStream where
  /-- The lexemes that are still to be read. -/
  pending : List Lexeme
  /-- The position of the next character. -/
  position : Position
  names : NameTable
  vocabulary : Vocabulary

namespace TokenStream

/-- A stream of lexemes; the reserved words are interned in `names` first. -/
def ofLexemes (pending : List Lexeme) (names : NameTable) : TokenStream :=
  let (vocabulary, names) := Vocabulary.intern names
  ⟨pending, .start, names, vocabulary⟩

/-- The stream of a source text. -/
def ofSource (source : String) (names : NameTable) : TokenStream :=
  ofLexemes (Lexeme.ofText source.toList) names

/-- Interns the text of a word or numeral. -/
def internWord (s : TokenStream) (text : List Char) : Word × TokenStream :=
  let text := String.ofList text
  let (id, names) := s.names.intern text
  (⟨id, text⟩, { s with names })

/-- The kind of the token of a lexeme. -/
def readKind (s : TokenStream) : Lexeme → TokenKind × TokenStream
  | .blank _ => (.space, s)
  | .word text =>
    let (w, s) := s.internWord text
    (.ofWord w (s.vocabulary.classify w.id), s)
  | .numeral text =>
    let (w, s) := s.internWord text
    (.number w, s)
  | .arrow => (.arrow, s)
  | .mark c => (.ofMark c, s)

/-- Reads a lexeme at the current position, and moves behind it. -/
def read (s : TokenStream) (l : Lexeme) : Token × TokenStream :=
  let (kind, s') := s.readKind l
  (⟨kind, s.position⟩, { s' with position := s.position.after l.text })

/-- Reads lexemes one after the other. -/
def readAll (s : TokenStream) : List Lexeme → List Token × TokenStream
  | [] => ([], s)
  | l :: ls =>
    let (t, s) := s.read l
    let (ts, s) := s.readAll ls
    (t :: ts, s)

/-- The next token, white space and comments included; none at the end (`next_raw_token`). -/
def nextRaw (s : TokenStream) : Option Token × TokenStream :=
  match s.pending with
  | [] => (none, s)
  | l :: ls =>
    let (t, s) := s.read l
    (some t, { s with pending := ls })

/-- Passes over the blank lexemes at the front. -/
def skipBlank (s : TokenStream) : TokenStream :=
  let blank := s.pending.takeWhile Lexeme.isBlank
  { s with
    pending := s.pending.dropWhile Lexeme.isBlank
    position := s.position.after (blank.flatMap Lexeme.text) }

/-- The next token that is not white space; none at the end (`next_token`). -/
def next (s : TokenStream) : Option Token × TokenStream := s.skipBlank.nextRaw

/-! ## Reading uses up lexemes -/

theorem length_pending_nextRaw {s s' : TokenStream} {t : Token} (h : s.nextRaw = (some t, s')) :
    s'.pending.length + 1 = s.pending.length := by
  unfold nextRaw at h
  split at h
  · exact absurd (congrArg Prod.fst h) (by simp)
  · rename_i l ls hp
    have e : { (s.read l).2 with pending := ls } = s' := congrArg Prod.snd h
    rw [hp, ← e]
    rfl

theorem length_pending_next {s s' : TokenStream} {t : Token} (h : s.next = (some t, s')) :
    s'.pending.length < s.pending.length := by
  have h1 := length_pending_nextRaw h
  have h2 : s.skipBlank.pending.length ≤ s.pending.length :=
    (List.dropWhile_sublist Lexeme.isBlank).length_le
  omega

end TokenStream

end Netlist
