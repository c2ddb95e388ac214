import TeaclaveSgx.Rand.ChaCha
import TeaclaveSgx.Rand.Block
import TeaclaveSgx.Rand.Counter
import TeaclaveSgx.Rand.Keying
import TeaclaveSgx.Rand.Stream
import TeaclaveSgx.Os.Paths
import TeaclaveSgx.Os.Env
import TeaclaveSgx.Unwind.Personality
import TeaclaveSgx.Unwind.Raise
