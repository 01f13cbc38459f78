import Bignum.Limbs
import Bignum.AddSub
import Bignum.Codec
import Bignum.Compare
import Bignum.Shift
import Bignum.Bits
import Bignum.FastMod
import Bignum.Multiply
import Bignum.Power
import Bignum.Field
import Bignum.Decimal
import Bignum.Format
import Bignum.FormatWriter
import Bignum.FormatSpec
