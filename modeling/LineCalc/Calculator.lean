import Std.Data.ExtTreeMap
import LineCalc.Definition

/-! # What is remembered between lines

A calculator remembers the numbers of variables and the definitions of functions, each under its
name, and how deep expressions may be nested.  Two tables are equal when they have the same
entries. -/

namespace LineCalc

/-- Finitely many names, and what each of them stands for. -/
abbrev Table (α : Type) : Type := Std.ExtTreeMap String α

structure Calculator where
  /-- How deep expressions may be nested. -/
  limit : Nat
  variableTable : Table Float
  functionTable : Table Definition

namespace Calculator

/-- The limit of a calculator that is not given another one. -/
def defaultLimit : Nat := 4096

/-- Remembers nothing. -/
def empty (limit : Nat) : Calculator := ⟨limit, ∅, ∅⟩

def valueOf? (c : Calculator) (name : String) : Option Float := c.variableTable[name]?

def functionOf? (c : Calculator) (name : String) : Option Definition := c.functionTable[name]?

/-- Writes a variable. -/
def assign (c : Calculator) (name : String) (x : Float) : Calculator :=
  { c with variableTable := c.variableTable.insert name x }

/-- Stores a function. -/
def define (c : Calculator) (name : String) (f : Definition) : Calculator :=
  { c with functionTable := c.functionTable.insert name f }

@[simp] theorem valueOf?_assign (c : Calculator) (name other : String) (x : Float) :
    (c.assign name x).valueOf? other = if name = other then some x else c.valueOf? other := by
  simp [valueOf?, assign, Std.ExtTreeMap.getElem?_insert]

@[simp] theorem functionOf?_assign (c : Calculator) (name other : String) (x : Float) :
    (c.assign name x).functionOf? other = c.functionOf? other := rfl

@[simp] theorem functionOf?_define (c : Calculator) (name other : String) (f : Definition) :
    (c.define name f).functionOf? other = if name = other then some f else c.functionOf? other := by
  simp [functionOf?, define, Std.ExtTreeMap.getElem?_insert]

@[simp] theorem valueOf?_define (c : Calculator) (name other : String) (f : Definition) :
    (c.define name f).valueOf? other = c.valueOf? other := rfl

end Calculator

end LineCalc
