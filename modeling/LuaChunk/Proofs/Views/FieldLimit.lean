import LuaChunk.Proofs.Control.Unwinding
import LuaChunk.Proofs.Views.Mooc

/-!
# The limit on fields

A lower limit on the fields of tables cuts the tables of a Lua chunk and changes nothing else.  What
a reading under the lower limit does is what is seen of a reading under the higher one through a
view that cuts every table.
-/

set_option autoImplicit false

namespace LuaChunk

theorem Parser.capped_capped {α : Type} (limit limit' : Nat) (items : List α) :
    capped (some limit) (capped (some limit') items) = capped (some (min limit limit')) items :=
  List.take_take

attribute [ext] Analysis

/-- Sessions of a dialect under a limit that is no higher than the limit given. -/
def View.limited (limit : Nat) (d : Dialect) : View where
  dialect := d
  place := id
  scanner := id
  settings c := { c with tableFieldLimit := min limit c.tableFieldLimit }
  cap :=
    match d with
    | .lua => some limit
    | .mooc => none
  dialect_settings _ := rfl
  maxNesting_settings _ := rfl
  capped_settings c _ items same := by
    subst same
    unfold Settings.fieldCap
    cases c.dialect with
    | lua => exact (Parser.capped_capped limit c.tableFieldLimit items).symm
    | mooc => rfl
  place_synthetic := rfl
  place_merge _ _ := rfl
  place_upTo _ _ := rfl
  place_block _ _ _ := rfl
  exact_or_lua := .inl fun _ => rfl

namespace View

variable (limit : Nat) (d : Dialect)

/-- Everything is seen of the tokens. -/
theorem tokens_limited (s : TokenStream) : (limited limit d).tokens s = s := by
  have lexical : (limited limit d).lexical = id := rfl
  have scanned : (limited limit d).scanned = id := funext fun r => by
    unfold View.scanned
    rw [lexical, List.map_id]
    rfl
  unfold View.tokens
  rw [scanned, lexical, List.map_id, List.map_id]
  rfl

theorem log_limited (l : ErrorLog) : (limited limit d).log l = l := by
  have diagnostic : (limited limit d).diagnostic = id := rfl
  unfold View.log
  rw [diagnostic, Array.map_id]

end View

namespace Session

variable (source : List UInt8) (name : String) (settings : Settings)

/-- The abort that a reading ends with, if it does. -/
def stop? : EStateM.Result Abort Session Block → Option Abort
  | .ok _ _ => none
  | .error abort _ => some abort

theorem stop?_seen {v : View} {r r' : EStateM.Result Abort Session Block}
    (shows : v.Shows v.block r r') : stop? r' = stop? r := by
  cases shows <;> rfl

theorem abort?_chunk : (start source name settings).abort? .chunk =
    stop? (run source name settings) := by
  have read : reading .chunk (start source name settings) =
      EStateM.bind (chunk (.level settings.maxNesting)) (fun _ => pure ())
        (opened source name settings) := by
    rw [← opened_eq]
    rfl
  unfold abort? run
  rw [read]
  unfold EStateM.bind
  cases chunk (.level settings.maxNesting) (opened source name settings) <;> rfl

/-- A fresh session under a lower limit is what is seen of one under a higher limit. -/
theorem opened_limited {limit limit' : Nat} (le : limit ≤ limit') :
    (View.limited limit settings.dialect).session
        (opened source name { settings with tableFieldLimit := limit' }) =
      opened source name { settings with tableFieldLimit := limit } := by
  have lower : (View.limited limit settings.dialect).settings
      { settings with tableFieldLimit := limit' } = { settings with tableFieldLimit := limit } := by
    simp [View.limited, Nat.min_eq_left le]
  unfold View.session
  rw [View.tokens_limited, View.log_limited]
  simp only [opened, lower]

theorem run_limited {limit limit' : Nat} (le : limit ≤ limit') :
    (View.limited limit settings.dialect).Shows (View.limited limit settings.dialect).block
      (run source name { settings with tableFieldLimit := limit' })
      (run source name { settings with tableFieldLimit := limit }) := by
  unfold run
  rw [← opened_limited source name settings le]
  exact chunk_commutes settings.maxNesting _ ⟨rfl, .inl fun _ => rfl⟩

theorem analyze_limited {limit limit' : Nat} (le : limit ≤ limit') :
    let s := start source name { settings with tableFieldLimit := limit }
    let s' := start source name { settings with tableFieldLimit := limit' }
    let a := s.analyze.1
    let a' := s'.analyze.1
    a.errors = a'.errors ∧ a.comments = a'.comments ∧ s.abort? .chunk = s'.abort? .chunk ∧
      a.block = (View.limited limit settings.dialect).block a'.block := by
  have shows := run_limited source name settings le
  have session := shows.session
  intro s s' a a'
  rw [show a = _ from analyze_run .., show a' = _ from analyze_run ..,
    show s.abort? .chunk = _ from abort?_chunk .., show s'.abort? .chunk = _ from abort?_chunk ..]
  refine ⟨?_, ?_, stop?_seen shows, shows.block⟩
  · dsimp only
    rw [session]
    exact congrArg (·.diagnostics.toList) (View.log_limited ..)
  · dsimp only
    rw [session]
    exact congrArg TokenStream.comments (View.tokens_limited ..)

/-- **The limit on fields.**  Two analyses of a source under different limits make the same
complaints, find the same comments, and stop for the same reason or not at all.  In Lua the block
under the lower limit is the block under the higher one with every table, at any depth, cut to the
lower limit; in Mooc the limit changes nothing. -/
theorem analyze_fieldLimit (source : List UInt8) (name : String) (settings : Settings)
    (limit limit' : Nat) :
    let s := start source name { settings with tableFieldLimit := limit }
    let s' := start source name { settings with tableFieldLimit := limit' }
    let a := s.analyze.1
    let a' := s'.analyze.1
    a.errors = a'.errors ∧ a.comments = a'.comments ∧ s.abort? .chunk = s'.abort? .chunk ∧
      (settings.dialect = .lua → limit ≤ limit' → a.block = a'.block.recast id (some limit)) ∧
      (settings.dialect = .mooc → a = a') := by
  intro s s' a a'
  have same : a.errors = a'.errors ∧ a.comments = a'.comments ∧
      s.abort? .chunk = s'.abort? .chunk := by
    rcases Nat.le_total limit limit' with le | le
    · obtain ⟨errors, comments, abort, _⟩ := analyze_limited source name settings le
      exact ⟨errors, comments, abort⟩
    · obtain ⟨errors, comments, abort, _⟩ := analyze_limited source name settings le
      exact ⟨errors.symm, comments.symm, abort.symm⟩
  obtain ⟨errors, comments, abort⟩ := same
  have whole (mooc : settings.dialect = .mooc) {limit limit' : Nat} (le : limit ≤ limit') :
      (start source name { settings with tableFieldLimit := limit }).analyze.1.block =
        (start source name { settings with tableFieldLimit := limit' }).analyze.1.block := by
    obtain ⟨_, _, _, block⟩ := analyze_limited source name settings le
    have cap : (View.limited limit settings.dialect).cap = none := by
      rw [mooc]
      rfl
    rw [block, View.block, cap]
    exact Block.recast_id _
  refine ⟨errors, comments, abort, fun lua le => ?_, fun mooc => ?_⟩
  · obtain ⟨_, _, _, block⟩ := analyze_limited source name settings le
    have cap : (View.limited limit settings.dialect).cap = some limit := by
      rw [lua]
      rfl
    rw [← cap]
    exact block
  · have block : a.block = a'.block := by
      rcases Nat.le_total limit limit' with le | le
      · exact whole mooc le
      · exact (whole mooc le).symm
    exact Analysis.ext block comments errors

/-- A table in a table, of two fields each. -/
theorem analyze_fieldLimit_nested :
    let read (d : Dialect) (limit : Nat) : Analysis :=
      (start "return {{1, 2}, {3, 4}}".toUTF8.toList ""
        { dialect := d, tableFieldLimit := limit }).analyze.1
    (read .lua 1).errors = [] ∧ 1 ≤ 2 ∧
      (read .lua 1).block = (read .lua 2).block.recast id (some 1) ∧
      (read .mooc 1).errors = [] ∧ read .mooc 1 = read .mooc 2 := by
  intro read
  obtain ⟨_, _, _, cut, _⟩ := analyze_fieldLimit "return {{1, 2}, {3, 4}}".toUTF8.toList "" {} 1 2
  obtain ⟨_, _, _, _, whole⟩ := analyze_fieldLimit "return {{1, 2}, {3, 4}}".toUTF8.toList ""
    { dialect := .mooc } 1 2
  exact ⟨by decide +kernel, by decide, cut rfl (by decide), by decide +kernel, whole rfl⟩

end Session

end LuaChunk
