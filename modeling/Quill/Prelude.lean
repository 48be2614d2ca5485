import Quill.Grammar.Program

/-!
# The prelude

What the language defines in itself: assertions, and the error a failed one raises. Its text is run
before any program, and the positions in it show in error messages.
-/

namespace Quill.Prelude

def lines : List String := [
  "# Raised by a failed assertion check.",
  "type AssertionFailure < Error",
  "  def initialize(left, right, description)",
  "    @left = left",
  "    @right = right",
  "    @description = description",
  "    @message = description",
  "  end",
  "",
  "  def left",
  "    @left",
  "  end",
  "",
  "  def right",
  "    @right",
  "  end",
  "",
  "  def description",
  "    @description",
  "  end",
  "end",
  "",
  "# Chainable checks on a value. Each check returns the assertion or raises",
  "# an AssertionFailure carrying the value, the expectation and a description.",
  "type Assertion",
  "  def initialize(value)",
  "    @value = value",
  "  end",
  "",
  "  def value",
  "    @value",
  "  end",
  "",
  "  def equals(expected)",
  "    check(@value == expected, expected, \"expected \" + @value.inspect + \" to equal \" + expected.inspect)",
  "  end",
  "",
  "  def not_equals(expected)",
  "    check(@value != expected, expected, \"expected \" + @value.inspect + \" not to equal \" + expected.inspect)",
  "  end",
  "",
  "  def less_than(bound)",
  "    check(@value < bound, bound, \"expected \" + @value.inspect + \" to be less than \" + bound.inspect)",
  "  end",
  "",
  "  def greater_than(bound)",
  "    check(@value > bound, bound, \"expected \" + @value.inspect + \" to be greater than \" + bound.inspect)",
  "  end",
  "",
  "  def is_true",
  "    check(@value == true, true, \"expected \" + @value.inspect + \" to be true\")",
  "  end",
  "",
  "  def is_false",
  "    check(@value == false, false, \"expected \" + @value.inspect + \" to be false\")",
  "  end",
  "",
  "  def is_a(expected)",
  "    check(@value.is_a?(expected), expected, \"expected \" + @value.inspect + \" to be a \" + expected.name)",
  "  end",
  "",
  "  # The value is a lambda that must raise when called.",
  "  def raises",
  "    begin",
  "      @value.call",
  "    rescue",
  "      return self",
  "    end",
  "    check(false, nil, \"expected an error to be raised\")",
  "  end",
  "",
  "  def raises(expected)",
  "    begin",
  "      @value.call",
  "    rescue e",
  "      return check(e.is_a?(expected), expected, \"expected \" + expected.name + \", got \" + e.inspect)",
  "    end",
  "    check(false, expected, \"expected \" + expected.name + \" to be raised\")",
  "  end",
  "",
  "  def check(ok, expected, description)",
  "    if ok",
  "      self",
  "    else",
  "      raise AssertionFailure.new(@value, expected, description)",
  "    end",
  "  end",
  "end",
  "",
  "type Object",
  "  def assert(value)",
  "    Assertion.new(value)",
  "  end",
  "end"
]

def text : String := String.join (lines.map (· ++ "\n"))

def program : Except SyntaxError Program := Program.ofText? text

end Quill.Prelude
