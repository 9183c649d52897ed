import JavaAnalyzer.Language.SourceTypes
import JavaAnalyzer.Semantic.TypeName

/-! # Strict resolution of source types

`resolve_type_name_strict` of `language/java/type_ctx.rs` with the paths of nested types of
`index/view.rs`: the type of a type text, or nothing where a part of it is not found. -/

namespace JavaAnalyzer.Index
set_option autoImplicit false

namespace IndexView

variable (view : IndexView)

def classRefMatchesSimpleName (simpleName : String) : ClassHandleRef → Bool
  | .overlay bucket internalName =>
    (bucket.getClass internalName).any fun c => c.matchesSimpleName simpleName
  | .artifact handle => ((view.artifactReader handle.artifactId).bind fun reader =>
      reader.stub handle).any fun stub => stub.name = simpleName

def resolveDirectInnerClass (ownerInternal simpleName : String) : Option ClassMetadata :=
  (((view.layers.flatMap (view.layerDirectInnerClassRefs ownerInternal)).filter
    (view.classRefMatchesSimpleName simpleName)).foldl view.keepBest none).bind view.resolveClassRef

/-- The nested class along the names, from an owner on. -/
def innerAlong (ownerInternal : String) : List String → Option String
  | [] => some ownerInternal
  | segment :: segments => (view.resolveDirectInnerClass ownerInternal segment).bind fun inner =>
      innerAlong inner.internalName segments

/-- The parts before and behind each place, the longest front first. -/
def splitsFromLongest (parts : List String) (longest : ℕ) : List (List String × List String) :=
  (List.range longest).reverse.map fun i => (parts.take (i + 1), parts.drop (i + 1))

/-- The nonempty segments of a dotted name. -/
def dottedParts (name : List Char) : List String :=
  ((name.splitOn '.').filter fun segment => !segment.isEmpty).map String.ofList

def resolveQualifiedTypePath (path : String) (resolveHead : String → Option String) : Option ClassMetadata :=
  let text := Text.trim path.toList
  if text.isEmpty then none
  else if '/' ∈ text then view.getClass (String.ofList text)
  else
    (splitsFromLongest (dottedParts text) (dottedParts text).length).findSome? fun split =>
      ((resolveHead (".".intercalate split.1)).bind fun owner => view.innerAlong owner split.2).bind view.getClass

end IndexView

end JavaAnalyzer.Index

namespace JavaAnalyzer.Language
set_option autoImplicit false
open JavaAnalyzer.Index Semantic Text

namespace SourceTypeCtx

variable (ctx : SourceTypeCtx)

/-- The closure `resolve_head` of `resolve_base_internal`. -/
def resolveHead (head : String) : Option String :=
  if '/' ∈ head.toList then if ctx.classExists head then some head else none
  else if '.' ∈ head.toList then
    if ctx.classExists (BucketState.slashed head) then some (BucketState.slashed head) else none
  else ctx.resolveSimpleStrict head

/-- The owner that the parts before a place name. -/
def ownerOf (front : List String) : Option String :=
  match front with
  | [simple] => ctx.resolveSimpleStrict simple
  | front => if ctx.classExists ("/".intercalate front) then some ("/".intercalate front) else none

/-- The class `Owner$Inner` of an owner that the parts before a place name. -/
def nestedByName (parts : List String) : Option String :=
  (IndexView.splitsFromLongest parts (parts.length - 1)).findSome? fun split =>
    (ctx.ownerOf split.1).bind fun owner =>
      let candidate := owner ++ "$" ++ "$".intercalate split.2
      if ctx.classExists candidate then some candidate else none

def resolveBaseInternal (baseName : List Char) : Option String :=
  let name := String.ofList baseName
  if '/' ∈ baseName then if ctx.classExists name then some name else none
  else if '.' ∈ baseName then
    match ctx.view.resolveQualifiedTypePath name ctx.resolveHead with
    | some resolved => some resolved.internalName
    | none =>
      let parts := IndexView.dottedParts baseName
      if parts.isEmpty then none
      else if ctx.classExists (BucketState.slashed name) then some (BucketState.slashed name)
      else ctx.nestedByName parts
  else ctx.resolveSimpleStrict name

/-- The bases that no type argument has. -/
def isPrimitiveBase (base : String) : Bool :=
  ["void", "boolean", "byte", "char", "short", "int", "long", "float", "double"].contains base

mutual

/-- `resolve_type_name_strict_inner`. Bounds and arguments are shorter than the text that holds them. -/
def resolveTypeNameStrictFuel : ℕ → List Char → Option TypeName
  | 0, _ => none
  | fuel + 1, ty =>
    let ty := stripLeadingJavaTypeModifiers (trim ty)
    if ty.isEmpty then none
    else
      let brackets := stripDimensions ty
      let base := stripLeadingJavaTypeModifiers brackets.2
      let bounds := splitTopLevelJavaIntersectionBounds base
      if 1 < bounds.length then
        (bounds.mapM (resolveTypeNameStrictFuel fuel)).map fun types =>
          if 0 < brackets.1 then (TypeName.intersection types).withArrayDims brackets.1
          else TypeName.intersection types
      else
        (splitJavaGenericBase base).bind fun split =>
          (ctx.resolveBaseInternal split.1).bind fun baseInternal =>
            (match split.2 with
              | some args => ((splitJavaGenericArgs args).mapM (resolveTypeArgTypeFuel fuel)).map fun (argTypes : List TypeName) =>
                  if argTypes.isEmpty then TypeName.internal baseInternal
                  else TypeName.internalWithArgs baseInternal argTypes
              | none => some (TypeName.internal baseInternal)).map fun (ty : TypeName) =>
                if 0 < brackets.1 then ty.withArrayDims brackets.1 else ty

/-- `resolve_type_arg_type` -/
def resolveTypeArgTypeFuel : ℕ → List Char → Option TypeName
  | 0, _ => none
  | fuel + 1, arg =>
    let arg := trim arg
    if arg.isEmpty then none
    else if arg = ['?'] then some TypeName.wildcard
    else if "? extends ".toList.isPrefixOf arg then
      (resolveTypeArgTypeFuel fuel (arg.drop "? extends ".length)).map TypeName.wildcardExtends
    else if "? super ".toList.isPrefixOf arg then
      (resolveTypeArgTypeFuel fuel (arg.drop "? super ".length)).map TypeName.wildcardSuper
    else
      (resolveTypeNameStrictFuel fuel arg).bind fun resolved =>
        if resolved.isArray || resolved.isIntersection then none
        else if isPrimitiveBase resolved.erasedInternal then none
        else if '/' ∈ resolved.erasedInternal.toList then some resolved
        else none

end

/-- `resolve_type_name_strict` -/
def resolveTypeNameStrict (ty : List Char) : Option TypeName :=
  ctx.resolveTypeNameStrictFuel (2 * ty.length + 2) ty

end SourceTypeCtx

end JavaAnalyzer.Language
