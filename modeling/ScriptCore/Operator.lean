/-! # Operators

The binary operators and the names under which a failing operation is reported.
-/

namespace ScriptCore

inductive BinaryOperator where
  | add
  | sub
  | mul
  | div
  | rem
  | and
  | or
  | xor
  | shl
  | shr
deriving DecidableEq

namespace BinaryOperator

def symbol : BinaryOperator → String
  | .add => "+"
  | .sub => "-"
  | .mul => "*"
  | .div => "/"
  | .rem => "%"
  | .and => "&"
  | .or => "|"
  | .xor => "^"
  | .shl => "<<"
  | .shr => ">>"

/-- All operators, in the order of their byte codes. -/
def all : List BinaryOperator :=
  [.add, .sub, .mul, .div, .rem, .and, .or, .xor, .shl, .shr]

end BinaryOperator

/-- What was attempted when operands of the wrong type were met. -/
inductive Operation where
  | binary (op : BinaryOperator)
  | assign (op : BinaryOperator)
  | equal
  | less
  | negate
  | complement
  | increment
  | decrement
  | push
  | popFront
  | popBack
  | insert
  | remove
  | truncate
  | peek
  | readIndex
  | writeIndex
  | readField
  | writeField
  | removeKey
  | containsKey
  | count
  | label
  | call
deriving DecidableEq

def Operation.name : Operation → String
  | .binary op => op.symbol
  | .assign op => op.symbol ++ "="
  | .equal => "=="
  | .less => "<"
  | .negate => "-"
  | .complement => "~"
  | .increment => "++"
  | .decrement => "--"
  | .push => "push"
  | .popFront => "pop"
  | .popBack => "pop_back"
  | .insert => "insert"
  | .remove => "remove"
  | .truncate => "truncate"
  | .peek => "peek"
  | .readIndex => "[]"
  | .writeIndex => "[]="
  | .readField => "."
  | .writeField => ".="
  | .removeKey => "remove_key"
  | .containsKey => "contains_key"
  | .count => "count"
  | .label => "case"
  | .call => "call"

end ScriptCore
