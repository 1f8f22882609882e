/-!
# Log records

What the collector reports while it runs.  A record has a channel, a level and a text.
-/

namespace MarkCompact

/-- How important a record is. -/
inductive LogLevel where
  | info
  | debug
  | trace
  deriving DecidableEq, Repr

/-- The name of a level. -/
def LogLevel.name : LogLevel → String
  | info => "INFO"
  | debug => "DEBUG"
  | trace => "TRACE"

/-- The part of the collector that reports. -/
inductive LogChannel where
  | collector
  | marking
  | compaction
  deriving DecidableEq, Repr

/-- The name of a channel. -/
def LogChannel.name : LogChannel → String
  | collector => "gc"
  | marking => "gc-mark"
  | compaction => "gc-compact"

/-- One report. -/
structure LogRecord where
  channel : LogChannel
  level : LogLevel
  text : String
  deriving DecidableEq, Repr

/-- A record on one line. -/
def LogRecord.render (r : LogRecord) : String :=
  r.channel.name ++ " " ++ r.level.name ++ " " ++ r.text

end MarkCompact
