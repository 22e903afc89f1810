import DeltaFeed.Journal.Template
import DeltaFeed.Op

/-! Loggers: entries that a caller writes on a channel of its own. -/

namespace DeltaFeed.Logger

def channelOf (name : Option String) : Channel :=
  match name with
  | some name => .named name
  | none => .general

def attachOption : String := "exc_info"

/-- The names that an option of an entry cannot have. -/
def reserved : List String := ["self", "msg", "level"]

/-- (log channel level template args options attach inHand) writes an entry. The template is
filled in if there are arguments. The failure in hand is attached if the options say so, or else
if attach does; the other options are kept with the entry.
-/
def log {σ : Type} (channel : Channel) (level : Level) (template : String) (args : List Value)
    (options : List (String × Value)) (attach : Bool) (inHand : Option String) : Op σ Unit := do
  if (keys options).any reserved.contains then .fail .wrongType
  let attach :=
    match options.lookup attachOption with
    | some value => !value.isVacant
    | none => attach
  let message ← if args.isEmpty then pure template else .ofResult (Template.fill template args)
  .report
    { level
      channel
      message
      extra := without attachOption options
      attached := if attach then inHand else none }

end DeltaFeed.Logger
