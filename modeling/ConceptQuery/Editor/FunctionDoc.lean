import ConceptQuery.Text.Ascii

/-! # Documented functions

What the editor shows of the functions that expressions may call. Every function
that the compiler knows is listed, in the order in which completions offer them.
-/
namespace ConceptQuery

structure Parameter where
  name : String
  description : String
deriving DecidableEq, Inhabited

structure FunctionDoc where
  name : String
  signature : String
  description : String
  parameters : List Parameter
deriving DecidableEq, Inhabited

namespace FunctionDoc

/-- The whole list. -/
def all : List FunctionDoc := [
  ⟨"count", "count(concept) -> int",
    "Count the number of distinct values of a concept.",
    [⟨"concept", "The concept to count distinct values of"⟩]⟩,
  ⟨"sum", "sum(concept) -> numeric",
    "Calculate the sum of all values of a concept.",
    [⟨"concept", "The numeric concept to sum"⟩]⟩,
  ⟨"avg", "avg(concept) -> float",
    "Calculate the average of all values of a concept.",
    [⟨"concept", "The numeric concept to average"⟩]⟩,
  ⟨"min", "min(concept) -> value",
    "Find the minimum value of a concept.",
    [⟨"concept", "The concept to find the minimum of"⟩]⟩,
  ⟨"max", "max(concept) -> value",
    "Find the maximum value of a concept.",
    [⟨"concept", "The concept to find the maximum of"⟩]⟩,
  ⟨"coalesce", "coalesce(value1, value2, ...) -> value",
    "Return the first non-null value from the arguments.",
    [⟨"value1", "First value to check"⟩,
     ⟨"value2", "Second value to check (optional)"⟩]⟩,
  ⟨"concat", "concat(string1, string2, ...) -> string",
    "Concatenate multiple strings together.",
    [⟨"string1", "First string"⟩, ⟨"string2", "Second string"⟩]⟩,
  ⟨"length", "length(string) -> int",
    "Return the length of a string.",
    [⟨"string", "The string to measure"⟩]⟩,
  ⟨"upper", "upper(string) -> string",
    "Convert a string to uppercase.",
    [⟨"string", "The string to convert"⟩]⟩,
  ⟨"lower", "lower(string) -> string",
    "Convert a string to lowercase.",
    [⟨"string", "The string to convert"⟩]⟩,
  ⟨"trim", "trim(string) -> string",
    "Remove leading and trailing whitespace from a string.",
    [⟨"string", "The string to trim"⟩]⟩,
  ⟨"substring", "substring(string, start, length) -> string",
    "Extract a substring from a string.",
    [⟨"string", "The source string"⟩,
     ⟨"start", "Starting position (1-indexed)"⟩,
     ⟨"length", "Number of characters to extract"⟩]⟩,
  ⟨"abs", "abs(value) -> numeric",
    "Return the absolute value of a number.",
    [⟨"value", "The numeric value"⟩]⟩,
  ⟨"round", "round(value, decimals?) -> numeric",
    "Round a number to the specified number of decimal places.",
    [⟨"value", "The numeric value to round"⟩,
     ⟨"decimals", "Number of decimal places (default: 0)"⟩]⟩,
  ⟨"floor", "floor(value) -> int",
    "Round a number down to the nearest integer.",
    [⟨"value", "The numeric value"⟩]⟩,
  ⟨"ceil", "ceil(value) -> int",
    "Round a number up to the nearest integer.",
    [⟨"value", "The numeric value"⟩]⟩,
  ⟨"date", "date(year, month, day) -> date",
    "Create a date from year, month, and day components.",
    [⟨"year", "The year"⟩,
     ⟨"month", "The month (1-12)"⟩,
     ⟨"day", "The day of the month"⟩]⟩,
  ⟨"year", "year(date) -> int",
    "Extract the year from a date.",
    [⟨"date", "The date to extract from"⟩]⟩,
  ⟨"month", "month(date) -> int",
    "Extract the month from a date.",
    [⟨"date", "The date to extract from"⟩]⟩,
  ⟨"day", "day(date) -> int",
    "Extract the day from a date.",
    [⟨"date", "The date to extract from"⟩]⟩,
  ⟨"now", "now() -> timestamp",
    "Return the current timestamp.",
    []⟩,
  ⟨"today", "today() -> date",
    "Return the current date.",
    []⟩,
  ⟨"cast", "cast(value, type) -> value",
    "Cast a value to a different data type.",
    [⟨"value", "The value to cast"⟩, ⟨"type", "The target data type"⟩]⟩,
  ⟨"case", "case(when condition then value, ..., else default) -> value",
    "Conditional expression that returns different values based on conditions.",
    [⟨"condition", "Boolean condition to test"⟩,
     ⟨"value", "Value to return if condition is true"⟩]⟩,
  ⟨"if", "if(condition, then_value, else_value) -> value",
    "Return one of two values based on a condition.",
    [⟨"condition", "Boolean condition to test"⟩,
     ⟨"then_value", "Value to return if condition is true"⟩,
     ⟨"else_value", "Value to return if condition is false"⟩]⟩,
  ⟨"nullif", "nullif(value1, value2) -> value",
    "Return NULL if value1 equals value2, otherwise return value1.",
    [⟨"value1", "The value to compare and potentially return"⟩,
     ⟨"value2", "The value to compare against"⟩]⟩,
  ⟨"like", "like(string, pattern) -> bool",
    "Check if a string matches a pattern (using % and _ wildcards).",
    [⟨"string", "The string to match"⟩,
     ⟨"pattern", "The pattern to match against"⟩]⟩,
  ⟨"unnest", "unnest(array) -> values",
    "Expand an array into multiple rows.",
    [⟨"array", "The array to expand"⟩]⟩,
  ⟨"array_agg", "array_agg(value) -> array",
    "Aggregate values into an array.",
    [⟨"value", "The values to aggregate"⟩]⟩,
  ⟨"string_agg", "string_agg(value, separator) -> string",
    "Concatenate values into a string with a separator.",
    [⟨"value", "The values to concatenate"⟩,
     ⟨"separator", "The separator between values"⟩]⟩]

/-- Function names are looked up without regard to case. -/
def find? (name : String) : Option FunctionDoc :=
  all.find? fun f => Text.sameLetters f.name name

end FunctionDoc
end ConceptQuery
