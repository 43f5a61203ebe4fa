import BytecodeToC.Symbol

/-!
A decoded program: classes with their fields and methods, and the instruction records of each
method as a class file reader wrote them down. Records are not checked here; a record may name an
opcode that does not exist or a label that is not defined.
-/

namespace BytecodeToC

inductive Constant where
  | int (value : Int32)
  | float (bits : UInt32)
  | long (value : Int64)
  | double (bits : UInt64)
  | string (text : String)
  | type (name : String)
  | methodHandle (handle : String)
deriving DecidableEq, Repr

inductive Record where
  | simple (op : String) (operand : Option Int32)
  | localVar (op : String) (slot : Option Slot) (name : Option String) (tag : Option Char)
  | increment (slot : Slot) (delta : Int32) (name : Option String)
  | field (op owner name descriptor : String) (useThis : Bool)
  | invoke (op owner name descriptor : String) (literalArgs : List (Option String))
      (receiver : Option String) (selfCall discardResult : Bool)
  | jump (op : String) (target : Label) (condition : Option String)
  | label (id : Label)
  /-- Explicit keys, or a low bound and one target per consecutive key. -/
  | switch (default : Option Label) (keys : List Int32) (low : Option Int32) (targets : List Label)
  | type (op typeName : String)
  | newArray (element : String)
  | multiArray (descriptor : String) (dimensions : UInt8)
  | constant (value : Constant)
deriving DecidableEq, Repr

/-- A row of an exception table. Without a type it catches everything. -/
structure TryEntry where
  start : Label
  finish : Label
  handler : Label
  catchType : Option String
deriving DecidableEq, Repr

structure FieldDecl where
  name : String
  descriptor : String
  isStatic : Bool
deriving DecidableEq, Repr

structure MethodDecl where
  name : String
  descriptor : String
  isStatic : Bool
  maxStack : UInt16
  maxLocals : UInt16
  /-- Empty for abstract and native methods. -/
  code : List Record
  tryCatch : List TryEntry
deriving DecidableEq, Repr

structure ClassDecl where
  name : String
  superName : Option String
  fields : List FieldDecl
  methods : List MethodDecl
deriving DecidableEq, Repr

structure Program where
  classes : List ClassDecl
deriving DecidableEq, Repr

structure MethodHeader where
  owner : String
  name : String
  descriptor : String
  isStatic : Bool
  maxStack : UInt16
  maxLocals : UInt16
deriving DecidableEq, Repr

namespace MethodHeader

def symbol (header : MethodHeader) : Except Error String :=
  Symbol.ofDescriptor header.owner header.name header.descriptor

def displayName (header : MethodHeader) : String :=
  header.owner ++ "." ++ header.name ++ header.descriptor

end MethodHeader

namespace MethodDecl

def header (method : MethodDecl) (owner : String) : MethodHeader :=
  { owner
    name := method.name
    descriptor := method.descriptor
    isStatic := method.isStatic
    maxStack := method.maxStack
    maxLocals := method.maxLocals }

def hasCode (method : MethodDecl) : Bool := !method.code.isEmpty

end MethodDecl

end BytecodeToC
