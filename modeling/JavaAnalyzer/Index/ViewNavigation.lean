import JavaAnalyzer.Index.DeclarationRanges
import JavaAnalyzer.Index.Hierarchy
import JavaAnalyzer.Library.Text

/-! # Targets of navigation

What `index/view.rs` reads off a class handle besides the class itself: names, flags and declaration ranges,
and the navigation targets made of them. -/

namespace JavaAnalyzer.Index
set_option autoImplicit false

inductive NavigationDeclKind where
  | type
  | method
  | field
deriving DecidableEq, Repr

structure NavigationSymbol where
  targetInternalName : String
  memberName : Option String
  descriptor : Option String
  fallbackName : Option String
  declKind : NavigationDeclKind
deriving DecidableEq, Repr

inductive NavigationTarget where
  | sourceFile (uri : String) (exactRange : Option SourceRange) (symbol : NavigationSymbol)
  | zipSource (zipPath entryName : String) (symbol : NavigationSymbol)
  | bytecode (jarPath : String) (symbol : NavigationSymbol)
deriving DecidableEq, Repr

/-- The class file flag of annotation types. -/
def accAnnotation : UInt16 := 0x2000

/-- Either the internal name behind its last slash or the simple name is the tail. -/
def matchesInternalNameTail (internalName name tail : String) : Bool :=
  Text.afterLast '/' internalName.toList = tail.toList || name = tail

namespace IndexView

variable (view : IndexView)

/-! ## Parts of a class handle -/

/-- A field of the class that a handle names, which is kept in both forms of a class. -/
def classRefField {α : Type} (ofClass : ClassMetadata → α) (ofStub : ArchiveClassStub → α) :
    ClassHandleRef → Option α
  | .overlay bucket internalName => (bucket.getClass internalName).map ofClass
  | .artifact handle => (view.artifactReader handle.artifactId).bind fun reader =>
      (reader.stub handle).map ofStub

def classRefOrigin : ClassHandleRef → Option ClassOrigin :=
  view.classRefField ClassMetadata.origin ArchiveClassStub.origin

def classRefDirectName : ClassHandleRef → Option String :=
  view.classRefField ClassMetadata.name ArchiveClassStub.name

def classRefIsAnnotation (classRef : ClassHandleRef) : Bool :=
  (view.classRefField ClassMetadata.accessFlags ArchiveClassStub.accessFlags classRef).any fun flags =>
    flags &&& accAnnotation ≠ 0

def classRefMatchesInternalNameTail (tail : String) (classRef : ClassHandleRef) : Bool :=
  (view.classRefField (fun c => (c.internalName, c.name)) (fun stub => (stub.internalName, stub.name))
    classRef).any fun names => matchesInternalNameTail names.1 names.2 tail

/-! ## Declaration ranges -/

def typeRefDeclarationRange : ClassHandleRef → Option SourceRange
  | .overlay bucket internalName => bucket.inner.typeDeclarationRange internalName
  | .artifact _ => none

def methodRefDeclarationRange (methodRef : MethodRef) : ClassHandleRef → Option SourceRange
  | .overlay bucket internalName =>
    bucket.inner.methodDeclarationRange internalName methodRef.name methodRef.descriptor
  | .artifact _ => none

def fieldRefDeclarationRange (fieldRef : FieldRef) : ClassHandleRef → Option SourceRange
  | .overlay bucket internalName => bucket.inner.fieldDeclarationRange internalName fieldRef.name
  | .artifact _ => none

/-! ## Targets -/

def navigationTargetFromClassRef (classRef : ClassHandleRef) (symbol : NavigationSymbol)
    (exactRange : Option SourceRange) : Option NavigationTarget :=
  match view.classRefOrigin classRef with
  | some (.sourceFile uri) => some (.sourceFile uri exactRange symbol)
  | some (.zipSource zipPath entryName) => some (.zipSource zipPath entryName symbol)
  | some (.jar jarPath) => some (.bytecode jarPath symbol)
  | some .unknown => none
  | none => none

/-- The target of a type whose handle is known. -/
def typeNavigationTarget (typeRef : TypeRef) (classRef : ClassHandleRef) : Option NavigationTarget :=
  (view.classRefDirectName classRef).bind fun name =>
    view.navigationTargetFromClassRef classRef
      ⟨typeRef.internalName, none, none, some name, .type⟩ (typeRefDeclarationRange classRef)

def methodNavigationTarget (methodRef : MethodRef) (classRef : ClassHandleRef) : Option NavigationTarget :=
  view.navigationTargetFromClassRef classRef
    ⟨methodRef.owner.internalName, some methodRef.name, some methodRef.descriptor, some methodRef.name, .method⟩
    (methodRefDeclarationRange methodRef classRef)

def fieldNavigationTarget (fieldRef : FieldRef) (classRef : ClassHandleRef) : Option NavigationTarget :=
  view.navigationTargetFromClassRef classRef
    ⟨fieldRef.owner.internalName, some fieldRef.name, none, some fieldRef.name, .field⟩
    (fieldRefDeclarationRange fieldRef classRef)

end IndexView

end JavaAnalyzer.Index
