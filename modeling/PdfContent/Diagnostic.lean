import PdfContent.Word
/-!
# Diagnostic — what can be wrong with content, and how it is told

What is wrong does not end the drawing of content: the operator, image or resource at fault is skipped.  Only a panic
does; it takes the way of the errors, and `panic?` tells it from them.  A cause is a value; its wording is in the
`message` of its type and nowhere else.
-/
namespace PdfContent

inductive FunctionFault where
  | tooDeep
  | notDictionary
  | noDomain
  | notStream
  | postScript
  | unknownType (type : Int)
  | noType
  | noRange
  | tooManyInputs
  | badBits (bits : Nat)
  | badSize
  | tooLarge
  | badData
  | outputsDiffer
  | noExponent
  | noParts
  | badBounds
  | badEncode
  | severalInGradient
  | panic (p : Panic)
deriving DecidableEq

inductive ColorSpaceFault where
  | tooDeep
  | unknownName (name : String)
  | unexpected (typeName : String)
  | noFamily
  | tooShort
  | noProfile
  | badComponents
  | badBase
  | noMaximum
  | badLookup
  | noLookup
  | shortLookup
  | noColorant
  | badColorants
  | unknownFamily (name : String)
  | noTint
  | tint (fault : FunctionFault)
  | panic (p : Panic)
deriving DecidableEq

inductive PatternFault where
  | notDictionary
  | notStream
  | unknownType (type : Nat)
  | noType
  | badPaintType
  | noBounds
  | badXStep
  | badYStep
deriving DecidableEq

inductive ShadingFault where
  | notDictionary
  | noType
  | unknownType (type : Nat)
  | noColorSpace
  | patternColorSpace
  | noFunction
  | noFunctions
  | badCoordinates
  | notStream
  | badData
  | fewColumns
  | badCoordinateBits
  | badComponentBits
  | badDecode
  | noGradient (type : Nat)
  | missingInPattern
deriving DecidableEq

inductive ImageFault where
  | badWidth
  | badHeight
  | badBits
  | badData
  | patternColorSpace
  | keyNotName
  | maskBits
  | inlineSoftMask
  | softMaskNotGray
  | badColorKey
  | inlineMask
  | maskNotMask
  | noColorSpace
  | panic (p : Panic)
deriving DecidableEq

inductive ExtGStateFault where
  | notDictionary
  | badBlendMode
  | badSoftMask
  | badSoftMaskType
  | badMaskTransfer
  | noMaskForm
  | noMaskGroup
  | badTransfer
  | panic (p : Panic)
deriving DecidableEq

inductive Diagnostic where
  /-- A command that is no operator. -/
  | unknownOperator (name : String)
  | tooFewArguments (op : String) (expected found : Nat)
  | tooManyArguments (op : String) (most found : Nat)
  | argumentType (op : String) (index : Nat) (found : String)
  /-- More operands than are kept; `offset` is where the dropped one ends. -/
  | operandOverflow (offset : Nat)
  /-- Operands at the end of a stream without a command. -/
  | leftoverOperands (count : Nat)
  | noCurrentPoint (op : String)
  | missingResource (category name : String)
  | badColorSpace (fault : ColorSpaceFault)
  | colorComponentCount (op : String) (expected found : Nat)
  | unsupportedPattern (fault : PatternFault)
  | unsupportedShading (fault : ShadingFault)
  | unsupportedFunction (fault : FunctionFault)
  | badImage (fault : ImageFault)
  /-- A form without a usable bounding box, possibly that of a soft mask. -/
  | badForm (ofSoftMask : Bool)
  | badExtGState (fault : ExtGStateFault)
  | noFont (op : String)
  | unexpectedOperator (op : String)
  | inlineImageEof
  | unbalancedRestore
  | unbalancedMarkedContent
  | panic (p : Panic)
deriving DecidableEq

namespace FunctionFault

def message : FunctionFault → String
  | tooDeep => "functions are nested too deeply"
  | notDictionary => "function is not a dictionary"
  | noDomain => "function has no domain"
  | notStream => "sampled function is not a stream"
  | postScript => "PostScript functions are not supported"
  | unknownType t => "unknown type " ++ toString t
  | noType => "function has no type"
  | noRange => "sampled function has no range"
  | tooManyInputs => "sampled function has too many inputs"
  | badBits n => "invalid bits per sample " ++ toString n
  | badSize => "sampled function has an invalid size"
  | tooLarge => "sampled function is too large"
  | badData => "failed to decode sampled function"
  | outputsDiffer => "C0 and C1 of exponential function differ in size"
  | noExponent => "exponential function has no exponent"
  | noParts => "stitching function has no functions"
  | badBounds => "stitching function has invalid bounds"
  | badEncode => "stitching function has invalid encode array"
  | severalInGradient => "gradients need a single color function"
  | panic p => p.message

def panic? : FunctionFault → Option Panic
  | panic p => some p
  | _ => none

end FunctionFault

namespace ColorSpaceFault

def message : ColorSpaceFault → String
  | tooDeep => "color spaces are nested too deeply"
  | unknownName n => "unknown name " ++ n
  | unexpected t => "unexpected " ++ t
  | noFamily => "color space array has no family name"
  | tooShort => "color space array is too short"
  | noProfile => "ICCBased space has no profile stream"
  | badComponents => "ICCBased space has an invalid number of components"
  | badBase => "invalid base space of Indexed space"
  | noMaximum => "Indexed space has no maximum index"
  | badLookup => "failed to decode lookup table of Indexed space"
  | noLookup => "Indexed space has no lookup table"
  | shortLookup => "lookup table of Indexed space is too short"
  | noColorant => "Separation space has no colorant name"
  | badColorants => "DeviceN space has invalid colorant names"
  | unknownFamily n => "unknown family " ++ n
  | noTint => "color space has no tint transform"
  | tint f => "tint transform: unsupported function: " ++ f.message
  | panic p => p.message

def panic? : ColorSpaceFault → Option Panic
  | panic p => some p
  | tint f => f.panic?
  | _ => none

end ColorSpaceFault

namespace PatternFault

def message : PatternFault → String
  | notDictionary => "pattern is not a dictionary"
  | notStream => "tiling pattern is not a stream"
  | unknownType t => "unknown pattern type " ++ toString t
  | noType => "pattern has no type"
  | badPaintType => "tiling pattern has an invalid paint type"
  | noBounds => "tiling pattern has no bounding box"
  | badXStep => "tiling pattern has an invalid x step"
  | badYStep => "tiling pattern has an invalid y step"

end PatternFault

namespace ShadingFault

def message : ShadingFault → String
  | notDictionary => "shading is not a dictionary"
  | noType => "shading has no type"
  | unknownType t => "unknown type " ++ toString t
  | noColorSpace => "shading has no color space"
  | patternColorSpace => "shading has a pattern color space"
  | noFunction => "shading has no function"
  | noFunctions => "shading has an empty function array"
  | badCoordinates => "shading has invalid coordinates"
  | notStream => "mesh shading is not a stream"
  | badData => "failed to decode mesh shading"
  | fewColumns => "lattice shading has too few columns"
  | badCoordinateBits => "invalid bits per coordinate"
  | badComponentBits => "invalid bits per component"
  | badDecode => "mesh shading has an invalid decode array"
  | noGradient t => "type " ++ toString t ++ " shadings can't be converted into gradients"
  | missingInPattern => "pattern has no shading"

end ShadingFault

namespace ImageFault

def message : ImageFault → String
  | badWidth => "invalid width"
  | badHeight => "invalid height"
  | badBits => "invalid bits per component"
  | badData => "failed to decode image data"
  | patternColorSpace => "images can't use a pattern color space"
  | keyNotName => "inline image dictionary key must be a name"
  | maskBits => "image masks must have 1 bit per component"
  | inlineSoftMask => "inline images can't have a soft mask"
  | softMaskNotGray => "soft masks must be DeviceGray"
  | badColorKey => "invalid color key mask"
  | inlineMask => "inline images can't have a mask"
  | maskNotMask => "mask is not an image mask"
  | noColorSpace => "missing color space"
  | panic p => p.message

def panic? : ImageFault → Option Panic
  | panic p => some p
  | _ => none

end ImageFault

namespace ExtGStateFault

def message : ExtGStateFault → String
  | notDictionary => "not a dictionary"
  | badBlendMode => "invalid blend mode"
  | badSoftMask => "invalid soft mask"
  | badSoftMaskType => "invalid soft mask type"
  | badMaskTransfer => "invalid transfer function in soft mask"
  | noMaskForm => "soft mask has no group"
  | noMaskGroup => "soft mask is missing its group"
  | badTransfer => "invalid transfer function"
  | panic p => p.message

def panic? : ExtGStateFault → Option Panic
  | panic p => some p
  | _ => none

end ExtGStateFault

namespace Diagnostic

def quoted (s : String) : String := "'" ++ s ++ "'"

def message : Diagnostic → String
  | unknownOperator n => "unknown operator " ++ quoted n
  | tooFewArguments op expected found =>
    "too few (" ++ toString found ++ ") args to " ++ quoted op ++ " operator, expected " ++ toString expected
  | tooManyArguments op most found =>
    "too many (" ++ toString found ++ ") args to " ++ quoted op ++ " operator, at most " ++ toString most
      ++ " are allowed"
  | argumentType op i found =>
    "arg #" ++ toString i ++ " to " ++ quoted op ++ " operator is wrong type (" ++ found ++ ")"
  | operandOverflow offset => "too many args in content stream at offset " ++ toString offset
  | leftoverOperands n => toString n ++ " leftover args in content stream"
  | noCurrentPoint op => "no current point in " ++ quoted op
  | missingResource category name => "unknown " ++ category ++ " " ++ quoted name
  | badColorSpace f => "bad color space: " ++ f.message
  | colorComponentCount op expected found =>
    "wrong number of components (" ++ toString found ++ ") in " ++ quoted op ++ ", expected " ++ toString expected
  | unsupportedPattern f => "unsupported pattern: " ++ f.message
  | unsupportedShading f => "unsupported shading: " ++ f.message
  | unsupportedFunction f => "unsupported function: " ++ f.message
  | badImage f => "bad image parameters: " ++ f.message
  | badForm ofSoftMask => "bad form: bad " ++ (if ofSoftMask then "soft mask" else "form") ++ " bounding box"
  | badExtGState f => "bad ExtGState: " ++ f.message
  | noFont op => "no font in show " ++ quoted op
  | unexpectedOperator op => "unexpected " ++ quoted op ++ " operator"
  | inlineImageEof => "end of file in inline image"
  | unbalancedRestore => "restore without a matching save"
  | unbalancedMarkedContent => "end of marked content without a matching begin"
  | panic p => p.message

def panic? : Diagnostic → Option Panic
  | panic p => some p
  | badColorSpace f => f.panic?
  | unsupportedFunction f => f.panic?
  | badImage f => f.panic?
  | badExtGState f => f.panic?
  | _ => none

end Diagnostic

end PdfContent
