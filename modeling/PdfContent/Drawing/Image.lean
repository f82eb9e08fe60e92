import PdfContent.Drawing.Machine
/-!
# Image — drawing images, with or without a mask
-/
namespace PdfContent.Machine

variable {α : Type} [Scalar α]

/-- Whether a stencil is painted where its samples are 1. -/
def isInverted (st : Store) (d : Dict) : Bool :=
  ((st.lookup? d "Decode" : Option (List Object)).bind fun items => (st.item? items 0 : Option Float)).any fun x =>
    x == 1

/-- The color space of an image, which may be the name of a resource.  JPEG 2000 data need none. -/
def imageSpace (env : Environment α) (m : Machine α) (d : Dict) (codec : Option ImageCodec) :
    Except Diagnostic ColorSpace :=
  match d.get? "ColorSpace" with
  | some (.name n) =>
    (ColorSpace.ofObject env.store ((m.resource? env.store "ColorSpace" n).getD (.name n))).mapError .badColorSpace
  | some o => (ColorSpace.ofObject env.store o).mapError .badColorSpace
  | none => if codec = some .jpx then .ok .deviceRgb else .error (.badImage .noColorSpace)

def imageMap (st : Store) (d : Dict) (image : ImageData) (space : ColorSpace) : Except Diagnostic ColorMap :=
  (ColorMap.make st space image.bits (st.lookup? d "Decode")).mapError .badImage

def readImage (st : Store) (s : Stream) : Except Diagnostic ImageData := (ImageData.ofStream st s).mapError .badImage

/-- The call for an image with a soft mask, which must be gray. -/
def softMasked (env : Environment α) (m : Machine α) (image : ImageData) (map : ColorMap) (s : Stream) :
    Except Diagnostic (Call α) := do
  let mask ← readImage env.store s
  let space ← m.imageSpace env s.dict mask.codec
  match space with
  | .deviceGray => return .addSoftMaskedImage m.state image map mask (← imageMap env.store s.dict mask space)
  | _ => throw (.badImage .softMaskNotGray)

def masked (env : Environment α) (m : Machine α) (image : ImageData) (map : ColorMap) (s : Stream) :
    Except Diagnostic (Call α) := do
  if !(env.store.lookup? s.dict "ImageMask").getD false then throw (.badImage .maskNotMask)
  return .addMaskedImage m.state image map (← readImage env.store s) (isInverted env.store s.dict)

def colorKey (st : Store) (map : ColorMap) (items : List Object) : Except Diagnostic (List Nat) :=
  match (st.all? items : Option (List UInt32)).filter fun key => key.length ≤ 2 * map.space.components with
  | some key => .ok (key.map (·.toNat))
  | none => .error (.badImage .badColorKey)

/-- The call that draws an image with full keys.  Inline images cannot have masks of their own. -/
def imageCall (env : Environment α) (m : Machine α) (s : Stream) (inline_ : Bool) : Except Diagnostic (Call α) := do
  let st := env.store
  let d := s.dict
  let image ← readImage st s
  if (st.lookup? d "ImageMask").getD false then
    if image.bits != 1 then throw (.badImage .maskBits)
    return .addImageMask m.state image (isInverted st d)
  let map ← imageMap st d image (← m.imageSpace env d image.codec)
  match (st.lookup? d "SMask" : Option Stream), (st.lookup? d "Mask" : Option Object) with
  | some mask, _ => if inline_ then throw (.badImage .inlineSoftMask) else m.softMasked env image map mask
  | none, some (.array items) => return .addImage m.state image map (some (← colorKey st map items))
  | none, some (.stream mask) => if inline_ then throw (.badImage .inlineMask) else m.masked env image map mask
  | none, _ => return .addImage m.state image map none

def drawImage (env : Environment α) (s : Stream) (inline_ : Bool) (m : Machine α) : Machine α :=
  match m.imageCall env s inline_ with
  | .ok call => m.tell call
  | .error e => m.report e

def drawInline (env : Environment α) (source : Content.ImageSource) (m : Machine α) : Machine α :=
  let m := m.reportAll source.faults
  match source.image with
  | some s => m.drawImage env s true
  | none => m

end PdfContent.Machine
