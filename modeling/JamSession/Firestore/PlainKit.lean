import JamSession.Firestore.Value

/-! A UIKit in which every picture is encoded and decoded, for concrete runs. -/

namespace JamSession.PlainKit

scoped instance kit : UIKit where
  UIImage := Unit
  Data := Unit
  jpegData := some
  ofData := some
  blank := ()

end JamSession.PlainKit
